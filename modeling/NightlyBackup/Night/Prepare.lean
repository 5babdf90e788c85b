import NightlyBackup.Night.Moves
import NightlyBackup.Night.Outlook

/-!
The beginning of a night: the history of every disk is looked up, and what it means for
tonight is entered into the plan of the disk.
-/

namespace NightlyBackup.Planning

def takeOutlook (o : Outlook) (levels : List Nat) (runs : Nat) (p : DiskPlan) : DiskPlan :=
  { p with
    priority := o.priority
    directives := o.directives
    degradedReason := o.degradedReason
    lastLevel := o.lastLevel
    nextFull := o.nextFull
    levelDays := runs
    lastFullSize := ((o.history.level? 0).map (·.mediaSize)).getD 0
    fullDate := o.history.levelDate? 0
    fullRate := o.history.full.rate.average 0.0
    incrRate := o.history.incr.rate.average 0.0
    fullRatio := o.history.full.comp.average o.disk.fullRatio
    incrRatio := o.history.incr.comp.average o.disk.incrRatio
    levels := levels.map fun l => { level := l, watermark := o.history.watermark l }
    history := some o.history }

/-- Enter a verdict: queue the record for its host to be asked, or fail it, or leave it out. -/
def enterVerdict (id : Nat) (o : Outlook) (runs : Nat) : Verdict → Planning Unit
  | .fail reason => failUnqueued id reason
  | .leaveOut level reason => skip id level reason
  | .ask levels => do
    setPlan id (takeOutlook o levels runs)
    enqueue .start id

/-- A direct data path does without the holding disk if it may. -/
def bypassHolding (p : DiskPlan) : DiskPlan :=
  if p.disk.directTcp ∧ p.disk.holding = .auto then
    { p with disk := { p.disk with holding := .never } }
  else p

def judge (id : Nat) (history : History) : Planning Unit := do
  let n ← get
  let s := n.settings
  let (o, verdict) :=
    (Outlook.ofHistory (n.plan id).disk history n.rotation s.reserve n.today).judge s n.rotation
  setPlan id bypassHolding
  reckon o.overflow
  o.notices.forM say
  enterVerdict id o (o.history.runsAt o.lastLevel n.rotation s.reserve s.runTapes) verdict

/-- Prepare one disk. One that cannot be dumped as it is configured fails at once. -/
def prepare (id : Nat) (history : Option History) : Planning Unit := do
  let disk := ((← get).plan id).disk
  if history.isNone then say (.diskAdded disk.host disk.name)
  match disk.refusal? with
  | some reason => failUnqueued id reason
  | none => judge id (history.getD {})

def prepareFrom (store : Store) (id : Nat) : Planning Unit := do
  let n ← get
  match store.history? (n.hostName id) (n.diskName id) with
  | .error fault => throw (.history fault)
  | .ok history => prepare id history

def prepareAll (store : Store) : Planning Unit := do
  (← get).records.forM (prepareFrom store)

end NightlyBackup.Planning
