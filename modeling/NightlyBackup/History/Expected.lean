import NightlyBackup.History
import NightlyBackup.IntWord

/-!
Sizes that are worked out from the history instead of asking the host. A full dump is
expected to be as big as the last one, an incremental as big as the ones before it at its
level. Where history says nothing the size is a guess: half a tape for a full dump, but not
more than about a gigabyte, and a tenth of the dump below for an incremental.
-/

namespace NightlyBackup

structure ExpectedSize where
  size : Nat
  guessed : Bool
  deriving DecidableEq, Repr

/-- The size of a full dump that is guessed without history, if the tape is long. -/
def newDiskGuess : Nat := 1000000

/-- The mean, rounded down; `none` of nothing. -/
def mean? (sizes : List Nat) : Option Nat :=
  if sizes.isEmpty then none else some (totalSize sizes / sizes.length)

def meanOverflow? (sizes : List Nat) : Option Overflow := sizesOverflow? [totalSize sizes]

/-- The dumps at `level` that come right after a dump at another level, or first of all;
`before` is the level of the dump before the list. -/
def firstDays (level : Nat) (before : Option Nat) : List PastDump → List PastDump
  | [] => []
  | d :: rest =>
    if d.level = level ∧ before ≠ some level then d :: firstDays level (some d.level) rest
    else firstDays level (some d.level) rest

namespace History

/-- The size of the next full dump. A recorded size up to 1000 KB is not trusted. -/
def expectedFull (h : History) (tapeLength : Nat) : ExpectedSize :=
  match h.dumps.reverse.find? (·.level = 0) with
  | some d => ⟨d.size, false⟩
  | none =>
    if h.levelSize 0 > 1000 then ⟨h.levelSize 0, false⟩
    else ⟨min newDiskGuess (tapeLength / 2), true⟩

/-- The mean of past sizes, or else the recorded size of a level, or else a tenth of what
is expected below. -/
def expectedFrom (h : History) (level : Nat) (past : List PastDump) (below : ExpectedSize) :
    ExpectedSize :=
  match mean? (past.map (·.size)) with
  | some size => ⟨size, false⟩
  | none =>
    if h.levelSize level > 0 then ⟨h.levelSize level, false⟩ else ⟨below.size / 10, true⟩

def expectedAgain (h : History) (level tapeLength : Nat) : ExpectedSize :=
  if level = 0 then h.expectedFull tapeLength
  else h.expectedFrom level (h.dumps.filter (·.level = level)) (h.expectedFull tapeLength)

/-- The native size of the next dump at `level`. On the first night at a level only sizes
of first nights count. -/
def expectedSize (h : History) (level : Nat) (lastLevel : Option Nat) (tapeLength : Nat) :
    ExpectedSize :=
  if level = 0 ∨ lastLevel = some level then h.expectedAgain level tapeLength
  else h.expectedFrom level (firstDays level none h.dumps)
    (h.expectedAgain (level - 1) tapeLength)

def againOverflow? (h : History) (level : Nat) : Option Overflow :=
  if level = 0 then none
  else meanOverflow? ((h.dumps.filter (·.level = level)).map (·.size))

/-- The overflow of adding up past sizes, which is done in 64-bit words. Below the level is only
looked at if nothing is known of the level itself. -/
def expectedOverflow? (h : History) (level : Nat) (lastLevel : Option Nat) :
    Option Overflow :=
  if level = 0 ∨ lastLevel = some level then h.againOverflow? level
  else
    let past := (firstDays level none h.dumps).map (·.size)
    if past.isEmpty ∧ h.levelSize level = 0 then h.againOverflow? (level - 1)
    else meanOverflow? past

end History

end NightlyBackup
