import NightlyBackup.Night

/-!
The elementary actions of planning: telling the operator something, reckoning with an
overflow, changing a plan, and moving records between queues. The scheduled queue is kept in
schedule order; to compare two dumps of equal priority their sizes on media are needed, and from
then on they stand.
-/

namespace NightlyBackup.Planning

def say (e : Event) : Planning Unit := modify (·.say e)

def warn (message : String) : Planning Unit := say (.warning message)

def reckon (what : Option Overflow) : Planning Unit := modify (·.reckon what)

def setPlan (id : Nat) (f : DiskPlan → DiskPlan) : Planning Unit := modify (·.setPlan id f)

def setHost (h : Nat) (f : Host → Host) : Planning Unit := modify (·.setHost h f)

def getPlan (id : Nat) : Planning DiskPlan := do pure ((← get).plan id)

def onQueues (f : Queues → Except QueueFault Queues) : Planning Unit := do
  match f (← get).queues with
  | .ok queues => modify fun n => { n with queues := queues }
  | .error fault => throw (.queue fault)

def enqueue (name : QueueName) (id : Nat) : Planning Unit := onQueues (·.enqueue name id)

def remove (name : QueueName) (id : Nat) : Planning Unit := onQueues (·.remove name id)

def moveTo (id : Nat) (source target : QueueName) : Planning Unit :=
  onQueues (·.moveTo id source target)

/-! ## Sizes on media -/

/-- The size on media of the level at `slot`, which stands from now on. -/
def mediaSize? (id slot : Nat) : Planning (Option Nat) := do
  setPlan id (·.fixMedia slot)
  pure (((← get).plan id).mediaSize? slot)

/-- The size on media of a level, if the level has a size; it stands from now on. -/
def mediaSizeAt? (id level : Nat) : Planning (Option Nat) := do
  match (← getPlan id).sizedSlot? level with
  | some slot => mediaSize? id slot
  | none => pure none

/-- The size on media of the chosen dump, which stands from now on. -/
def dumpMediaSize (id : Nat) : Planning Nat := do
  setPlan id (·.fixDumpMedia)
  pure ((← get).plan id).dumpMediaSize

/-! ## The schedule -/

/-- The members that `id` is compared with on its way to its place: all up to the first
that it sorts ahead of. -/
def passed (n : Night) (id : Nat) : List Nat → List Nat
  | [] => []
  | m :: rest =>
    if (n.plan id).order (n.plan m) = .lt then [m] else m :: passed n id rest

/-- Compare a plan with others: where priorities are equal, sizes are looked at. -/
def fixCompared (id : Nat) (members : List Nat) : Planning Unit :=
  members.forM fun m => do
    if (← getPlan id).priority = (← getPlan m).priority then
      setPlan id (·.fixDumpMedia)
      setPlan m (·.fixDumpMedia)

def insertScheduled (id : Nat) : Planning Unit := do
  let n ← get
  onQueues (·.insertSorted .scheduled (fun a b => (n.plan a).order (n.plan b) = .lt) id)
  fixCompared id (passed n id n.scheduled)

/-- Put a scheduled record at its place again after its dump has changed. -/
def resortScheduled (id : Nat) : Planning Unit := do
  remove .scheduled id
  insertScheduled id

/-! ## Records that are not dumped -/

def failFrom (id : Nat) (source : QueueName) (reason : String) : Planning Unit := do
  moveTo id source .failed
  setPlan id fun p => { p with fault := some reason }

def failUnqueued (id : Nat) (reason : String) : Planning Unit := do
  enqueue .failed id
  setPlan id fun p => { p with fault := some reason }

/-- A record is left out; it stays off every queue. -/
def skip (id level : Nat) (reason : String) : Planning Unit := do
  let n ← get
  say (.skipped (n.hostName id) (n.diskName id) level reason)
  modify fun n => { n with skipped := n.skipped ++ [⟨id, level, reason⟩] }

end NightlyBackup.Planning
