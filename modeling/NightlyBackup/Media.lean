import NightlyBackup.IntWord
import NightlyBackup.Settings

/-!
The media of a run: how much it holds, what a dump costs on it, and how big a single dump
may be. All sizes are in KB.
-/

namespace NightlyBackup

structure Media where
  /-- Room for the whole run. -/
  capacity : Nat
  /-- Room on one volume. -/
  volume : Nat
  runTapes : Nat
  blocksize : Nat
  filemark : Nat
  deriving DecidableEq, Repr, Inhabited

namespace Media

def ofSettings (s : Settings) : Media where
  capacity :=
    if s.maxDumpSize > 0 then s.maxDumpSize.natAbs
    else min (s.tapeLength * max s.runTapes 1) Settings.wordLimit
  volume := s.tapeLength
  runTapes := max s.runTapes 1
  blocksize := s.tapeBlocksize
  filemark := s.tapeFilemark

def overhead (m : Media) : Nat := m.blocksize + m.filemark

/-- An empty tape still has a label and an end mark. -/
def emptyTape (m : Media) : Nat := 2 * m.overhead

def emptyOverflow? (m : Media) : Option Overflow :=
  (IntWord.unsigned64.check .add m.overhead).or (IntWord.unsigned64.check .multiply m.emptyTape)

def dumpCost (m : Media) (size : Nat) : Nat := m.blocksize + size + m.filemark

/-- The biggest dump that the disk may have in one run. -/
def ceiling (m : Media) (d : Disk) : Nat :=
  if d.splits then min (m.volume * m.runTapes) Settings.wordLimit else m.volume

end Media

end NightlyBackup
