import NightlyBackup.DiskPlan
import NightlyBackup.IntWord
import NightlyBackup.Night.Outlook

/-!
Which of the sized levels of a disk is dumped tonight, and which it falls back to when a
full dump turns out not to fit.
-/

namespace NightlyBackup

inductive Pick
  /-- The level at a place, which has a size. -/
  | usable (slot : Nat)
  /-- The same, one level up because that pays; `level` is the level moved up to. -/
  | raised (slot level : Nat)
  /-- The level that suits has no size. -/
  | unmeasured (level : Nat)
  /-- No level suits. -/
  | missing
  deriving DecidableEq, Repr

def Pick.slot? : Pick → Option Nat
  | .usable slot | .raised slot _ => some slot
  | .unmeasured _ | .missing => none

structure Choice where
  dump : Option Nat
  degraded : Option Nat := none
  /-- Why there is no fallback, where no reason was known before. -/
  reason : Option String := none
  /-- The incremental that was picked on the way, if one was looked for. -/
  pick : Option Pick := none
  deriving DecidableEq, Repr

namespace DiskPlan

def pickAt (p : DiskPlan) (level : Nat) : Pick :=
  match p.sizedSlot? level with
  | some slot => .usable slot
  | none => .unmeasured level

/-- The place of a level whose size is not zero. -/
def positiveSlot? (p : DiskPlan) (level : Nat) : Option Nat :=
  (p.sizedSlot? level).filter fun slot => (p.nativeSize? slot).getD 0 > 0

/-- The size of a full dump: tonight's, or else the last one's. -/
def fullSize (p : DiskPlan) : Nat :=
  (p.nativeSizeAt? 0).getD ((p.history.map (·.levelSize 0)).getD 0)

/-- Level `last`, sized at `base`, is not moved up from, whatever the next level takes. -/
def staysAt (p : DiskPlan) (last base : Nat) : Prop :=
  last = levelLimit - 1 ∨ p.levelDays < p.disk.bump.days ∨
    (p.nativeSize? base).getD 0 ≤ p.disk.bump.threshold last p.fullSize

instance (p : DiskPlan) (last base : Nat) : Decidable (p.staysAt last base) :=
  inferInstanceAs (Decidable (_ ∨ _))

/-- Move up from level `last`, sized at `base`, if there were enough runs at it and the
next level saves more than the threshold. -/
def pickRaised (p : DiskPlan) (last base : Nat) : Pick :=
  let size := (p.nativeSize? base).getD 0
  let threshold := p.disk.bump.threshold last p.fullSize
  if p.staysAt last base then .usable base
  else match p.sizedSlot? (last + 1) with
  | none => .usable base
  | some next =>
    if size - (p.nativeSize? next).getD 0 ≤ threshold then .usable base
    else .raised next (last + 1)

def pickIncremental (p : DiskPlan) : Pick :=
  match p.lastLevel with
  | none =>
    match p.positiveSlot? 0 with
    | some slot => .usable slot
    | none => .missing
  | some last =>
    if last = 0 ∨ p.disk.strategy = .noFull then p.pickAt 1
    else match p.sizedSlot? last with
    | some base => p.pickRaised last base
    | none =>
      match p.positiveSlot? (last + 1) with
      | some slot => .usable slot
      | none => .unmeasured last

/-- Picking the incremental looks at the level above `last`. -/
def looksAbove (p : DiskPlan) (last : Nat) : Bool :=
  last ≠ 0 && p.disk.strategy ≠ .noFull && match p.sizedSlot? last with
    | some base => ¬p.staysAt last base
    | none => true

/-- The overflow of the level above the last one, if that level is looked at. -/
def aboveOverflow? (p : DiskPlan) (looks : Nat → Bool) : Option Overflow :=
  (p.lastLevel.filter looks).bind fun last => IntWord.unsigned32.check .add (last + 1)

def pickOverflow? (p : DiskPlan) : Option Overflow := p.aboveOverflow? p.looksAbove

/-- The place of a pick, or of the level above if the picked level has no size. -/
def resolve (p : DiskPlan) : Pick → Option Nat
  | .usable slot | .raised slot _ => some slot
  | .unmeasured level => p.sizedSlot? (level + 1)
  | .missing => none

def isDue (p : DiskPlan) : Bool :=
  p.nextFull ≤ 0 || (p.lastLevel = some 0 && p.directives.forceNoBump)

/-- The fallback of a full dump at `full`. -/
def chooseFallback (p : DiskPlan) (full : Nat) : Choice :=
  if p.isNew || p.disk.skipIncr then
    { dump := some full
      reason :=
        if p.disk.skipIncr then some "skip-incr disk can't be dumped in degraded mode" else none }
  else
    let pick := p.pickIncremental
    let fallback := (p.resolve pick).filter fun slot =>
      ((p.levels[slot]?.map (·.level)).getD 0) > 0
    { dump := some full
      degraded := fallback
      reason := if fallback.isSome then none else some
        "an incremental estimate could not be performed, so disk cannot be dumped in degraded mode"
      pick := some pick }

/-- The first of several places that is there. -/
def chooseFirst : List (Option Nat) → Option Nat
  | [] => none
  | some slot :: _ => some slot
  | none :: rest => chooseFirst rest

/-- Tonight's dump: the full dump if it is due, or else an incremental, or whatever else has
a size. -/
def choose (p : DiskPlan) : Choice :=
  if p.isDue then
    match p.sizedSlot? 0 with
    | some full => p.chooseFallback full
    | none => { dump := p.resolve p.pickIncremental, pick := some p.pickIncremental }
  else
    { dump := chooseFirst
        [p.pickIncremental.slot?, p.lastLevel.bind p.sizedSlot?,
         p.sizedSlot? ((p.lastLevel.map (· + 1)).getD 0), p.sizedSlot? 0]
      reason := some "a full is not planned, so can't dump in degraded mode"
      pick := some p.pickIncremental }

/-- The overflow of choosing tonight's dump. An incremental is picked unless a full dump is
due and stands without a fallback; if none is, the level above the last one may do instead. -/
def choiceOverflow? (p : DiskPlan) : Option Overflow :=
  if p.isDue && (p.sizedSlot? 0).isSome && (p.isNew || p.disk.skipIncr) then none
  else p.aboveOverflow? fun last => p.looksAbove last ||
    (!p.isDue && p.pickIncremental.slot?.isNone && (p.sizedSlot? last).isNone)

end DiskPlan

end NightlyBackup
