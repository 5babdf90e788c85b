import NightlyBackup.Disk
import NightlyBackup.Rotation

/-!
What the history says for tonight: at which level the last dump was and for how many runs,
when the next full dump is due, and since when a dump at some level has to reach back.
-/

namespace NightlyBackup.History

/-- Levels among which the last dump is looked for when it is not recorded. -/
def searchedLevels : Nat := 9

/-- The level looked at counts as lost if it is older than the last full dump. -/
def isLost (h : History) (level : Nat) : Bool :=
  level > 0 && (h.levelDate? level).getD (-1) < (h.levelDate? 0).getD (-1)

/-- Keep the level with the newest dump seen so far, and its date. -/
def newer (h : History) (best : Option Nat × Int) (level : Nat) : Option Nat × Int :=
  let date := (h.levelDate? level).getD (-1)
  if h.isLost level then best
  else if date > best.2 then (some level, date)
  else best

/-- A tape at this position or farther back is not looked at. -/
def farthestPosition : Int := 4294967295

/-- Keep the level whose tape was written last of those seen so far, and its position. -/
def fresher (h : History) (r : Rotation) (best : Option Nat × Int) (level : Nat) :
    Option Nat × Int :=
  if h.isLost level then best
  else match (h.levelLabel? level).bind r.find? with
  | none => best
  | some tape => if tape.position < best.2 then (some level, tape.position) else best

/-- The level of the last dump: as recorded, or else the one with the newest dump, or, if
all of the holding disk is reserved, the one on the tape written last. -/
def lastDumped (h : History) (r : Rotation) (reserve : Nat) : Option Nat :=
  match h.lastLevel with
  | some level => some level
  | none =>
    if reserve < 100 then ((List.range searchedLevels).foldl h.newer (none, 0)).1
    else ((List.range searchedLevels).foldl (h.fresher r) (none, farthestPosition)).1

def daysToFull (h : History) (strategy : Strategy) (dumpCycle : Nat) (today : Int) : Int :=
  match strategy with
  | .noFull | .incrementalOnly => 1
  | .noIncremental => 0
  | .standard =>
    match h.levelDate? 0 with
    | none => -Calendar.daysBetween 0 today
    | some date => min (dumpCycle : Int) Calendar.dayLimit - Calendar.daysBetween date today

def daysOverflow? (h : History) (strategy : Strategy) (dumpCycle : Nat) (today : Int) :
    Option Overflow :=
  match strategy, h.levelDate? 0 with
  | .standard, none =>
    (Calendar.daysOverflow? 0 today).or
      (IntWord.signed32.check .negate (h.daysToFull strategy dumpCycle today))
  | .standard, some date =>
    (Calendar.daysOverflow? date today).or
      (IntWord.signed32.check .subtract (h.daysToFull strategy dumpCycle today))
  | _, _ => none

/-- Runs in a row at `level`, zero unless it is the level of the last dump. Where they are
not recorded, the distance between the tapes of the level and of the one below tells. -/
def runsAt (h : History) (level : Option Nat) (r : Rotation) (reserve runTapes : Nat) : Nat :=
  match level with
  | none => 0
  | some level =>
    if h.lastDumped r reserve ≠ some level then 0
    else match h.consecutiveRuns with
    | some runs => runs
    | none =>
      if level = 0 then 1
      else match (h.levelLabel? level).bind r.find?, (h.levelLabel? (level - 1)).bind r.find? with
      | some this, some below =>
        (below.position - this.position).toNat / max runTapes 1
      | _, _ => 0

/-- The date of the newest dump below `level`, not before 1970. -/
def newestBelow (h : History) (level : Nat) : Int :=
  ((h.levels.filter (·.1 < level)).filterMap (·.2.date)).foldl max 0

def watermark (h : History) (level : Nat) : String := Calendar.watermark (h.newestBelow level)

end NightlyBackup.History
