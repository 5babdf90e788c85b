import NightlyBackup.History.Store
import NightlyBackup.Calendar

/-!
The rotation of tapes: which tape holds what, when a tape is written again, and how many
runs a dump cycle has, judging by how often tapes were written. Tapes are counted in signed
64-bit words; cycles and positions have 32 bits.
-/

namespace NightlyBackup

structure Rotation where
  tapes : List Tape := []
  /-- The number of tapes that take turns. -/
  tapeCycle : Nat := 15
  /-- The number of tapes that one run may use, at least one. -/
  runTapes : Nat := 1
  deriving Repr

namespace Rotation

def ofTapes (tapes : List Tape) (tapeCycle runTapes : Nat) : Rotation :=
  ⟨tapes, tapeCycle, max runTapes 1⟩

def find? (r : Rotation) (label : String) : Option Tape :=
  r.tapes.find? (·.label = label)

def atPosition? (r : Rotation) (position : Int) : Option Tape :=
  r.tapes.find? (·.position = position)

/-- Runs left before a tape is written again; 0 means in this run. An unknown tape is
written in the next run, and one that is not to be used again never. -/
def runsUntilOverwrite (r : Rotation) (label : String) : Int :=
  match r.find? label with
  | none => 1
  | some tape =>
    if !tape.reuse then 1024
    else ((max r.tapes.length r.tapeCycle : Int) - tape.position).tdiv r.runTapes

/-- Count the tapes written less than `cycle` days ago, from `position` on, at most
`positions` of them. The second result is the age in days of the last tape looked at. -/
def countRecent (r : Rotation) (cycle : Int) (today : Int) :
    (positions : Nat) → (position : Nat) → (count age : Int) → Int × Int
  | 0, _, count, age => (count, age)
  | positions + 1, position, count, age =>
    match r.atPosition? position with
    | none => (count, age)
    | some tape =>
      let written := (Calendar.readStamp tape.datestamp).getD 0
      let age := Calendar.daysBetween written today
      if age < cycle then r.countRecent cycle today positions (position + 1) (count + 1) age
      else (count, age)

/-- The tapes that a dump cycle takes, judging by the last ones written. -/
def tapesPerCycle (r : Rotation) (dumpCycle : Nat) (today : Int) : Int :=
  let (count, age) := r.countRecent dumpCycle today (r.tapeCycle - 1) 1 0 0
  if age < dumpCycle then
    if age = 0 then dumpCycle * r.runTapes else (count * dumpCycle).tdiv age
  else if count = 0 then dumpCycle * r.runTapes
  else count

/-- The overflow of judging the tapes that a dump cycle takes, which are multiplied unless the
count stands, and of rounding the runs up. -/
def guessOverflow? (r : Rotation) (dumpCycle : Nat) (today : Int) : Option Overflow :=
  let (count, age) := r.countRecent dumpCycle today (r.tapeCycle - 1) 1 0 0
  let product :=
    if age < dumpCycle then
      if age = 0 then IntWord.signed64.check .multiply (dumpCycle * r.runTapes)
      else IntWord.signed64.check .multiply (count * dumpCycle)
    else if count = 0 then IntWord.signed64.check .multiply (dumpCycle * r.runTapes)
    else none
  product.or (IntWord.signed64.check .add (r.tapesPerCycle dumpCycle today + r.runTapes))

def runLimit : Nat := 4294967295

/-- The runs that a dump cycle has, at least one. -/
def guessRuns (r : Rotation) (dumpCycle : Nat) (today : Int) : Nat :=
  let runs := (r.tapesPerCycle dumpCycle today + r.runTapes - 1).tdiv r.runTapes
  min (max runs 1).toNat runLimit

end Rotation

end NightlyBackup
