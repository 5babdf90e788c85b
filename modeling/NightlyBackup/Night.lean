import NightlyBackup.DiskPlan
import NightlyBackup.Event
import NightlyBackup.Exchange.Features
import NightlyBackup.Fault
import NightlyBackup.Media
import NightlyBackup.Rotation

/-!
The state of one night's planning: a plan for every disk that takes part, the queues the
plans wait on, the hosts, the running size of the schedule, and what was said to the
operator and to the hosts so far. Planning actions change this state; a fault ends an
action and leaves standing what was changed before it.
-/

namespace NightlyBackup

inductive HostState
  | ready
  | active
  | done
  deriving DecidableEq, Repr, Inhabited

structure Host where
  name : String
  state : HostState := .ready
  /-- Unknown until the host has answered the first question. -/
  features : Option FeatureSet := none
  /-- The records of its disks. -/
  disks : List Nat := []
  maxDumps : Nat := 1
  deriving DecidableEq, Repr, Inhabited

/-- Running sizes of the schedule in KB, as they are exactly. -/
structure Totals where
  /-- What the schedule takes on media. -/
  size : Nat := 0
  /-- The size on media of its full dumps. -/
  fullSize : Nat := 0
  /-- The size of full dumps that one run should have. -/
  balanced : Float := 0
  /-- How far from it the full dumps of a run may be. -/
  threshold : Float := 0
  /-- The first operation of the night whose result its word does not hold. -/
  overflow : Option Overflow := none
  deriving Repr, Inhabited

/-- Reckon with an operation that may overflow. -/
def Totals.reckon (t : Totals) (what : Option Overflow) : Totals :=
  { t with overflow := t.overflow.or what }

/-- Reckon with running sizes that have grown. -/
def Totals.checked (t : Totals) : Totals := t.reckon (sizesOverflow? [t.size, t.fullSize])

/-- A disk that is left out on purpose. -/
structure Skipped where
  record : Nat
  level : Nat
  reason : String
  deriving DecidableEq, Repr, Inhabited

deriving instance Inhabited for Settings
deriving instance Inhabited for Rotation

structure Night where
  settings : Settings
  media : Media
  plans : List DiskPlan := []
  queues : Queues := {}
  hosts : List Host := []
  rotation : Rotation
  /-- The stamp on every line of output. -/
  timestamp : String
  today : Int
  runsPerCycle : Nat
  totals : Totals := {}
  skipped : List Skipped := []
  /-- Everything told to the operator, in order. -/
  events : List Event := []
  /-- Every request sent to a host, in order: the host and the text. -/
  sent : List (String × String) := []
  deriving Repr, Inhabited

namespace Night

def plan (n : Night) (id : Nat) : DiskPlan := n.plans.getD id default

def host (n : Night) (h : Nat) : Host := n.hosts.getD h default

def records (n : Night) : List Nat := List.range n.plans.length

def hostName (n : Night) (id : Nat) : String := (n.host (n.plan id).host).name

def diskName (n : Night) (id : Nat) : String := (n.plan id).disk.name

def scheduled (n : Night) : List Nat := n.queues.scheduled

def setPlan (n : Night) (id : Nat) (f : DiskPlan → DiskPlan) : Night :=
  { n with plans := n.plans.modify id f }

def setHost (n : Night) (h : Nat) (f : Host → Host) : Night :=
  { n with hosts := n.hosts.modify h f }

def say (n : Night) (e : Event) : Night := { n with events := n.events ++ [e] }

def reckon (n : Night) (what : Option Overflow) : Night :=
  { n with totals := n.totals.reckon what }

/-! ## The beginning of a night -/

/-- The number of a host, with the host entered if it is new. -/
def enterHost (n : Night) (name : String) : Nat × Night :=
  match n.hosts.findIdx? (·.name = name) with
  | some h => (h, n)
  | none => (n.hosts.length, { n with hosts := n.hosts ++ [{ name := name }] })

def enterDisk (n : Night) (d : Disk) : Night :=
  let (h, n) := n.enterHost d.host
  let (id, queues) := n.queues.register
  let n := n.setHost h fun host =>
    { host with disks := host.disks ++ [id], maxDumps := max host.maxDumps d.maxDumps }
  { n with queues := queues, plans := n.plans ++ [DiskPlan.ofDisk d h] }

/-- The runs in a dump cycle, at least one. -/
def cycleRuns (s : Settings) (r : Rotation) (today : Int) : Nat :=
  let runs :=
    if s.runsPerCycle = 0 then s.dumpCycle
    else if s.runsPerCycle = -1 then r.guessRuns s.dumpCycle today
    else if s.runsPerCycle < 0 then 1
    else s.runsPerCycle.toNat
  max runs 1

def cycleOverflow? (s : Settings) (r : Rotation) (today : Int) : Option Overflow :=
  if s.runsPerCycle = -1 then r.guessOverflow? s.dumpCycle today else none

/-- The night before anything is planned, for those of the disks that take part. -/
def begin (s : Settings) (disks : List Disk) (r : Rotation) (today : Int) :
    Except Fault Night :=
  let present := disks.filter (·.todo)
  if present.isEmpty then .error .emptyDiskList
  else match cycleOverflow? s r today with
  | some what => .error (.overflow what)
  | none =>
    let empty : Night :=
      { settings := s
        media := Media.ofSettings s
        rotation := r
        timestamp := s.timestamp.getD (Calendar.stamp s.useTimestamps today)
        today := today
        runsPerCycle := cycleRuns s r today }
    .ok (present.foldl enterDisk empty)

end Night

abbrev Planning := EStateM Fault Night

end NightlyBackup
