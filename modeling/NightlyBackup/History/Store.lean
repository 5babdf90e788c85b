import NightlyBackup.History.Figures

/-!
The history store: what earlier runs left behind about disks and tapes, in the form in
which it was stored. Sizes and levels are stored as 64-bit signed words and read back as
unsigned words of their own width. Performance is stored as text and may be damaged, which
is the only way in which reading can fail.
-/

namespace NightlyBackup

structure StoredLevel where
  level : Int
  size : Int
  mediaSize : Int
  seconds : Int
  date : Option Int
  label : Option String
  deriving Repr

structure StoredDump where
  level : Int
  size : Int
  mediaSize : Int
  seconds : Int
  date : Int
  deriving Repr

structure StoredHistory where
  host : String
  disk : String
  command : Int := 0
  lastLevel : Option Int := none
  consecutiveRuns : Option Int := none
  full : String := "\x7b\"rate\":[-1.0,-1.0,-1.0],\"comp\":[-1.0,-1.0,-1.0]\x7d"
  incr : String := "\x7b\"rate\":[-1.0,-1.0,-1.0],\"comp\":[-1.0,-1.0,-1.0]\x7d"
  levels : List StoredLevel := []
  dumps : List StoredDump := []
  deriving Repr

structure Tape where
  label : String
  /-- 1 for the tape written last. -/
  position : Int
  /-- When it was written, as a stamp. -/
  datestamp : String
  reuse : Bool
  deriving DecidableEq, Repr

/-- Stored text that does not hold performance figures. -/
inductive StoreFault
  | corruptFull (host disk : String)
  | corruptIncr (host disk : String)
  deriving DecidableEq, Repr

def StoreFault.message : StoreFault → String
  | .corruptFull host disk => "Corrupt full_perf for " ++ host ++ ":" ++ disk
  | .corruptIncr host disk => "Corrupt incr_perf for " ++ host ++ ":" ++ disk

structure Store where
  disks : List StoredHistory := []
  tapes : List Tape := []
  deriving Repr

/-! ## Reading back -/

/-- A signed word as an unsigned word of `bits` bits. -/
def wrapWord (bits : Nat) (n : Int) : Nat := (n % ((1 <<< bits : Nat) : Int)).toNat

/-- A number that is an unsigned 32-bit word. -/
def word? (n : Int) : Option Nat :=
  if 0 ≤ n ∧ n < 4294967296 then some n.toNat else none

def StoredLevel.toRecord (l : StoredLevel) : LevelRecord where
  size := wrapWord 64 l.size
  mediaSize := wrapWord 64 l.mediaSize
  seconds := wrapWord 64 l.seconds
  date := l.date
  label := l.label

def StoredDump.toDump (d : StoredDump) : PastDump where
  level := wrapWord 32 d.level
  size := wrapWord 64 d.size
  mediaSize := wrapWord 64 d.mediaSize
  seconds := wrapWord 64 d.seconds
  date := d.date

/-- Enter a level into an ascending list of levels, in place of an entry for it. -/
def insertLevel (level : Nat) (r : LevelRecord) :
    List (Nat × LevelRecord) → List (Nat × LevelRecord)
  | [] => [(level, r)]
  | (l, s) :: rest =>
    if level < l then (level, r) :: (l, s) :: rest
    else if level = l then (level, r) :: rest
    else (l, s) :: insertLevel level r rest

/-- The levels in ascending order. Of two stored levels that read back as the same word,
the one stored with the greater number stays. -/
def readLevels (stored : List StoredLevel) : List (Nat × LevelRecord) :=
  (stored.mergeSort (fun a b => a.level ≤ b.level)).foldl
    (fun levels l => insertLevel (wrapWord 32 l.level) l.toRecord levels) []

/-- The dumps by date; dumps of one moment stay in the order in which they were stored. -/
def readDumps (stored : List StoredDump) : List PastDump :=
  (stored.mergeSort (fun a b => a.date ≤ b.date)).map StoredDump.toDump

def StoredHistory.read (s : StoredHistory) : Except StoreFault History :=
  match Figures.ofText? s.full, Figures.ofText? s.incr with
  | none, _ => .error (.corruptFull s.host s.disk)
  | some _, none => .error (.corruptIncr s.host s.disk)
  | some full, some incr => .ok {
      directives := Directives.ofBits s.command
      levels := readLevels s.levels
      full := full
      incr := incr
      lastLevel := s.lastLevel.bind word?
      consecutiveRuns := s.consecutiveRuns.bind word?
      dumps := readDumps s.dumps }

namespace Store

/-- The history of a disk; `none` for a disk that was never dumped. -/
def history? (s : Store) (host disk : String) : Except StoreFault (Option History) :=
  match s.disks.find? (fun r => r.host = host ∧ r.disk = disk) with
  | none => .ok none
  | some r => r.read.map some

def rotation (s : Store) : List Tape :=
  (s.tapes.mergeSort (fun a b => a.position ≤ b.position)).map
    fun t => { t with position := wrapWord 32 t.position }

def put (s : Store) (r : StoredHistory) : Store :=
  { s with disks :=
      s.disks.filter (fun old => !(old.host = r.host ∧ old.disk = r.disk)) ++ [r] }

def putTape (s : Store) (t : Tape) : Store :=
  { s with tapes :=
      if s.tapes.any (·.label = t.label) then
        s.tapes.map fun old => if old.label = t.label then t else old
      else s.tapes ++ [t] }

end Store

end NightlyBackup
