import NightlyBackup.Disk
import NightlyBackup.History

/-!
What is planned for one disk tonight: the levels whose sizes are asked for, what came
back, the level that was chosen and the one to fall back to.
-/

namespace NightlyBackup

inductive SizeEstimate
  /-- Asked for, not answered yet. -/
  | pending
  | sized (kb : Nat)
  /-- Withdrawn by the host. -/
  | removed
  /-- The exchange with the host ended before an answer came. -/
  | timedOut
  deriving DecidableEq, Repr, Inhabited

def SizeEstimate.kb? : SizeEstimate → Option Nat
  | .sized kb => some kb
  | _ => none

structure LevelEstimate where
  level : Nat
  /-- The date of the newest dump at any lower level. -/
  watermark : String
  size : SizeEstimate := .pending
  /-- No history stands behind the size. -/
  guessed : Bool := false
  /-- The size on media, from the moment when it was first needed. -/
  media : Option Nat := none
  deriving DecidableEq, Repr, Inhabited

/-- Set the size; the size on media is open again. -/
def LevelEstimate.setSize (e : LevelEstimate) (size : SizeEstimate) (guessed : Bool) :
    LevelEstimate :=
  { e with size := size, guessed := guessed, media := none }

inductive Progress
  | ready
  | active
  | partlyDone
  | done
  deriving DecidableEq, Repr, Inhabited

structure DiskPlan where
  disk : Disk
  /-- The number of its host. -/
  host : Nat
  progress : Progress := .ready
  /-- Lines of replies that told something about the disk. -/
  answers : Nat := 0
  priority : Int
  levels : List LevelEstimate := []
  /-- The place in `levels` of the dump chosen for tonight. -/
  dump : Option Nat := none
  /-- The place in `levels` of the dump to fall back to. -/
  degraded : Option Nat := none
  /-- Why there is nothing to fall back to. -/
  degradedReason : Option String := none
  lastLevel : Option Nat := none
  /-- The size on media of the last full dump. -/
  lastFullSize : Nat := 0
  /-- Days until a full dump is due; zero or less for tonight. -/
  nextFull : Int := 0
  /-- Runs at the last level so far. -/
  levelDays : Nat := 0
  /-- The score in the last round of promotions. -/
  promote : Int := 0
  fullRate : Float := -1.0
  incrRate : Float := -1.0
  fullRatio : Float := -1.0
  incrRatio : Float := -1.0
  fault : Option String := none
  directives : Directives := {}
  /-- The date of the last full dump. -/
  fullDate : Option Int := none
  history : Option History := none
  deriving Repr, Inhabited

/-- The size on media of `native` KB at a compression ratio: a ratio above 1.1 counts as
1.1, and nothing takes less than 1 KB. -/
def compressedSize (ratio : Float) (native : Nat) : Nat :=
  let ratio := if ratio ≤ 1.1 then ratio else 1.1
  (max (Float.ofNat native * ratio).toInt64.toInt 1).toNat

namespace DiskPlan

def ofDisk (d : Disk) (host : Nat) : DiskPlan where
  disk := d
  host := host
  priority := d.priority

/-- The place of a level that has a size. -/
def sizedSlot? (p : DiskPlan) (level : Nat) : Option Nat :=
  p.levels.findIdx? fun e => e.level = level && e.size.kb?.isSome

def slot? (p : DiskPlan) (level : Nat) : Option Nat :=
  p.levels.findIdx? (·.level = level)

def nativeSize? (p : DiskPlan) (slot : Nat) : Option Nat :=
  p.levels[slot]?.bind (·.size.kb?)

def nativeSizeAt? (p : DiskPlan) (level : Nat) : Option Nat :=
  (p.sizedSlot? level).bind p.nativeSize?

/-- The size on media that the ratios of the disk give now. -/
def ratedSize (p : DiskPlan) (level native : Nat) : Nat :=
  if p.disk.compress = .neither then native
  else compressedSize (if level = 0 then p.fullRatio else p.incrRatio) native

def mediaOf? (p : DiskPlan) (e : LevelEstimate) : Option Nat :=
  e.size.kb?.map fun native => e.media.getD (p.ratedSize e.level native)

def mediaSize? (p : DiskPlan) (slot : Nat) : Option Nat :=
  p.levels[slot]?.bind p.mediaOf?

/-- Hold on to the size on media of the level at `slot`. -/
def fixMedia (p : DiskPlan) (slot : Nat) : DiskPlan :=
  { p with levels := p.levels.modify slot fun e => { e with media := p.mediaOf? e } }

def fixDumpMedia (p : DiskPlan) : DiskPlan :=
  match p.dump with
  | some slot => p.fixMedia slot
  | none => p

def dumpLevel? (p : DiskPlan) : Option Nat :=
  p.dump.bind fun slot => p.levels[slot]?.map (·.level)

def isFull (p : DiskPlan) : Bool := p.dumpLevel? = some 0

/-- The size on media of the chosen dump, zero if there is none. -/
def dumpMediaSize (p : DiskPlan) : Nat := (p.dump.bind p.mediaSize?).getD 0

def hasPositiveSize (p : DiskPlan) : Bool :=
  p.levels.any fun e => match e.size with
    | .sized kb => kb > 0
    | _ => false

def pendingLevels (p : DiskPlan) : List Nat :=
  (p.levels.filter (·.size = .pending)).map (·.level)

/-- Give up on every level that is still unanswered. -/
def expirePending (p : DiskPlan) : DiskPlan :=
  { p with levels := p.levels.map fun e =>
      if e.size = .pending then e.setSize .timedOut false else e }

def setSize (p : DiskPlan) (slot : Nat) (size : SizeEstimate) (guessed : Bool) : DiskPlan :=
  { p with levels := p.levels.modify slot (·.setSize size guessed) }

/-- The disk was never dumped, as far as the run is concerned. -/
def isNew (p : DiskPlan) : Bool := p.lastLevel.isNone

/-- Schedule order: the higher priority first, then the bigger dump. -/
def order (a b : DiskPlan) : Ordering :=
  (compare b.priority a.priority).then (compare b.dumpMediaSize a.dumpMediaSize)

end DiskPlan

end NightlyBackup
