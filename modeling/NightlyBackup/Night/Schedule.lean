import NightlyBackup.Night.Choice
import NightlyBackup.Night.Moves

/-!
The schedule: every disk with a size gets its dump for tonight and its place in schedule
order, and the running sizes of the schedule are built up. Sizes are added up and multiplied
in 64-bit words.
-/

namespace NightlyBackup.Planning

/-- The part of the balanced size up to which the full dumps of a run may differ from it. -/
def promoteThreshold : Float := 0.05

/-- A full dump as often as it is made in one dump cycle of the night. -/
def cycleSize (n : Night) (p : DiskPlan) (fullSize : Nat) : Nat :=
  let cycle := n.settings.dumpCycle
  if p.disk.dumpCycle = 0 then fullSize * cycle
  else if p.disk.dumpCycle ≠ cycle then fullSize * (cycle / p.disk.dumpCycle)
  else fullSize

/-- What a disk adds to the size of full dumps that each run should have. -/
def balanceShare (n : Night) (p : DiskPlan) (fullSize : Nat) : Nat :=
  if p.disk.strategy = .noIncremental then fullSize
  else cycleSize n p fullSize / max n.runsPerCycle 1

def shareOverflow? (n : Night) (p : DiskPlan) (fullSize : Nat) : Option Overflow :=
  if p.disk.strategy = .noIncremental then none
  else IntWord.unsigned64.check .multiply (cycleSize n p fullSize)

def announcePick (id : Nat) : Option Pick → Planning Unit
  | some (.raised _ level) => do
    let n ← get
    say (.bumped (n.hostName id) (n.diskName id) level)
  | _ => pure ()

def pickIncremental (id : Nat) : Planning Pick := do
  let p ← getPlan id
  reckon p.pickOverflow?
  announcePick id (some p.pickIncremental)
  pure p.pickIncremental

def takeChoice (c : Choice) (p : DiskPlan) : DiskPlan :=
  { p with
    dump := c.dump
    degraded := c.degraded
    degradedReason := match p.degradedReason with
      | some reason => some reason
      | none => c.reason }

def countDump (id size : Nat) : Planning Unit :=
  modify fun n =>
    let totals := { n.totals with
      size := n.totals.size + n.media.dumpCost size
      fullSize := if (n.plan id).isFull then n.totals.fullSize + size else n.totals.fullSize }
    { n with totals := totals.checked }

/-- Count the full dump of a disk, whenever it comes, for the balance. -/
def countShare (id : Nat) (fullSize : Nat) : Planning Unit :=
  modify fun n =>
    let totals := { n.totals with
      balanced := n.totals.balanced + Float.ofNat (balanceShare n (n.plan id) fullSize) }
    { n with totals := totals.reckon (shareOverflow? n (n.plan id) fullSize) }

/-- The size of the full dump of a disk, tonight's if it is known, or else the last one's. -/
def fullMediaSize (id : Nat) : Planning Nat := do
  pure ((← mediaSizeAt? id 0).getD (← getPlan id).lastFullSize)

/-- Count the full dump of a disk, if it has its share in the balance, and repeat what its
host said. -/
def noteDump (id : Nat) (fullSize : Option Nat) (fault : Option String) : Planning Unit := do
  match fullSize with
  | some fullSize => countShare id fullSize
  | none => pure ()
  match fault with
  | some fault =>
    let n ← get
    warn (n.hostName id ++ ":" ++ n.diskName id ++ " " ++ fault)
  | none => pure ()

/-- Schedule one disk as was chosen for it, or fail it if nothing of it has a size. -/
def scheduleChosen (id : Nat) (choice : Choice) : Planning Unit := do
  announcePick id choice.pick
  match choice.dump with
  | none => failUnqueued id "no estimate"
  | some _ =>
    setPlan id (takeChoice choice)
    let size ← dumpMediaSize id
    let p ← getPlan id
    let fullSize ← if p.disk.takesFulls then some <$> fullMediaSize id else pure none
    insertScheduled id
    countDump id size
    noteDump id fullSize p.fault

def analyze (id : Nat) : Planning Unit := do
  let p ← getPlan id
  reckon p.choiceOverflow?
  scheduleChosen id p.choose

def analyzeNext (id : Nat) : Planning Unit := do
  remove .estimated id
  analyze id

def countNothing (n : Night) : Night :=
  let totals := { n.totals with size := n.media.emptyTape, fullSize := 0, balanced := 0 }
  { n with totals := totals.reckon n.media.emptyOverflow? }

def analyzeAll : Planning Unit := do
  modify countNothing
  (← get).queues.estimated.forM analyzeNext
  modify fun n => { n with totals :=
    { n.totals with threshold := n.totals.balanced * promoteThreshold } }

end NightlyBackup.Planning
