import NightlyBackup.Disk.Listing
import NightlyBackup.Exchange.Gathering
import NightlyBackup.Night.Balance
import NightlyBackup.Night.Fit
import NightlyBackup.Night.Output
import NightlyBackup.Night.Prepare
import NightlyBackup.Night.Schedule
import NightlyBackup.Settings.Lines

/-!
The whole run: from settings, disk list and store over the answers of the hosts to the
written schedule and the exit status.
-/

namespace NightlyBackup

namespace Planning

/-- A phase of the planning. The first overflow ends it, whatever comes of it otherwise. -/
def withinWords (phase : Planning Unit) : Planning Unit := fun n =>
  match phase n with
  | .ok () m => match m.totals.overflow with
    | none => .ok () m
    | some what => .error (.overflow what) m
  | .error fault m => .error (m.totals.overflow.elim fault .overflow) m

def schedule : Planning Unit := do
  withinWords analyzeAll
  withinWords fit
  withinWords balance

/-- Plan the night, from the history of every disk to a balanced schedule, with sizes that are
gathered in some way. -/
def planWith (store : Store) (gathering : Planning Unit) : Planning Unit := do
  withinWords (prepareAll store)
  withinWords gathering
  schedule

/-- Plan the night with the sizes that the hosts give. -/
def planNight {σ : Type} (store : Store) (net : Network σ) (s : σ) (cancelled : Bool) :
    Planning Unit :=
  planWith store (gather net s cancelled)

def run {σ : Type} (store : Store) (net : Network σ) (s : σ) (cancelled : Bool) (sink : Sink) :
    Planning (Summary × List String) := do
  planNight store net s cancelled
  writeSchedule sink

end Planning

/-- The night that the settings, the disks and the tapes of a store make. -/
def Store.beginNight (store : Store) (s : Settings) (disks : List Disk) (today : Int) :
    Except Fault Night :=
  Night.begin s disks (Rotation.ofTapes store.rotation s.tapeCycle s.runTapes) today

/-! ## The program -/

structure World where
  settingsText : Option String
  diskListText : Option String
  surroundings : Settings.Surroundings := {}
  store : Store := {}
  /-- What the peers of the connections answer, in the order in which they are made. -/
  peers : List String := []
  today : Int

inductive ProgramFault
  | settings (fault : SettingsFault)
  | noDiskList (path : String)
  | diskList (fault : Disk.ListFault)
  | planning (fault : Fault)
  deriving DecidableEq, Repr

def ProgramFault.message : ProgramFault → String
  | .settings fault => fault.message
  | .noDiskList path => "Failed to read disk list: " ++ path
  | .diskList fault => fault.message
  | .planning fault => "Planning failed: " ++ fault.message

/-- A run that an overflow ends is broken off. -/
def ProgramFault.exitCode : ProgramFault → Nat
  | .planning (.overflow _) => 101
  | _ => 1

structure Outcome where
  exitCode : Nat
  /-- Lines on standard output. -/
  lines : List String := []
  fault : Option ProgramFault := none
  /-- The host and the port of every connection that was answered, and what was sent. -/
  sent : List (String × Nat × String) := []
  deriving Repr

/-- What is sent over connections that are answered. -/
def answeredRequests (n : Night) (answered : Nat) : List (String × Nat × String) :=
  (n.sent.take answered).map fun (host, body) => (host, n.settings.port, Wire.stuff body)

/-- A run succeeds if it schedules something and nothing fails. -/
def exitCodeOf (summary : Summary) : Nat :=
  if summary.failed > 0 ∨ summary.scheduled = 0 then 1 else 0

def World.plan (w : World) (n : Night) : Outcome :=
  match Planning.run w.store peerNetwork w.peers false {} n with
  | .ok (summary, lines) n =>
    { exitCode := exitCodeOf summary, lines := lines
      sent := answeredRequests n w.peers.length }
  | .error fault n =>
    { exitCode := (ProgramFault.planning fault).exitCode, fault := some (.planning fault)
      sent := answeredRequests n w.peers.length }

def World.beginNight (w : World) : Except ProgramFault Night := do
  let settings ← (Settings.load w.settingsText w.surroundings).mapError .settings
  let text ← match w.diskListText with
    | some text => .ok text
    | none => .error (.noDiskList settings.diskListPath)
  let disks ← (Disk.readList settings text).mapError .diskList
  (w.store.beginNight settings disks w.today).mapError .planning

def World.run (w : World) : Outcome :=
  match w.beginNight with
  | .ok n => w.plan n
  | .error fault => { exitCode := fault.exitCode, fault := some fault }

end NightlyBackup
