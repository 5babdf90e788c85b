import NightlyBackup.Night.Choice
import NightlyBackup.Night.Moves

/-!
Balancing: full dumps of coming days are pulled into tonight as long as tonight has fewer
of them than its share. Without any full dump tonight, the day ahead on which most of them
would come together loses one of its disks to tonight.
-/

namespace NightlyBackup.Planning

/-- The place and the size on media of the full dump that a record could have instead of
its incremental. -/
def fullCandidate (id : Nat) : Planning (Option (Nat × Nat)) := do
  let p ← getPlan id
  if p.isFull then pure none
  else match p.positiveSlot? 0 with
  | none => pure none
  | some slot => pure ((← mediaSize? id slot).map ((slot, ·)))

/-- The size of the schedule with `full` KB in place of `current`. -/
def sizeWith (n : Night) (full current : Nat) : Nat := n.totals.size + full - current

/-- Sizes that are added up when `full` KB are to come besides what is scheduled. -/
def sizesWith (n : Night) (full : Nat) : List Nat :=
  [n.totals.size + full, n.totals.fullSize + full]

def countPromoted (full current : Nat) (n : Night) : Night :=
  let totals := { n.totals with
    size := sizeWith n full current
    fullSize := n.totals.fullSize + full }
  { n with totals := totals.reckon (sizesOverflow? (sizesWith n full)) }

/-- Switch a record to its full dump at `slot`; its incremental is the fallback. -/
def promote (id slot : Nat) (special : Bool) : Planning Unit := do
  let daysAhead := (← getPlan id).nextFull
  let current ← dumpMediaSize id
  let full := (← mediaSize? id slot).getD 0
  modify (countPromoted full current)
  setPlan id fun p => { p with degraded := p.dump, dump := some slot, nextFull := 0 }
  resortScheduled id
  let n ← get
  say (.promoted (n.hostName id) (n.diskName id) daysAhead special)

/-! ## The best incremental to promote -/

/-- How many full dumps tonight has on all hosts, how many on the host of `p`, and how many
other dumps of that host fall due on the same day as the full dump of `p`. -/
def neighbours (n : Night) (p : DiskPlan) : Nat × Nat × Nat :=
  let others := n.scheduled.map n.plan
  let full := others.filter (·.isFull)
  let mates := others.filter fun o => !o.isFull && o.host = p.host && o.nextFull = p.nextFull
  (full.length, (full.filter (·.host = p.host)).length, mates.length)

/-- The dumps of a host that fall due together count more if the host has no full dump
tonight. -/
def crowd (today sameDay : Nat) : Int :=
  if today = 0 ∧ sameDay > 1 then sameDay + 1 else sameDay

/-- What speaks for a candidate: the fewer full dumps its host has tonight the better, and
the more dumps of its host fall due together. -/
def weight (today sameDay : Nat) : Int :=
  let today2 : Int := today * today
  let crowd := crowd today sameDay
  if crowd ≥ today2 then (crowd - today2) * (crowd - today2) else -today2

def scoreCycle (n : Night) : Int := min (n.settings.dumpCycle : Int) Calendar.dayLimit

def score (dumpCycle : Int) (today sameDay : Nat) (nextFull : Int) : Int :=
  weight today sameDay + dumpCycle - nextFull

/-- The overflow of a score, which is worked out in 32-bit words. -/
def scoreOverflow? (dumpCycle : Int) (today sameDay : Nat) (nextFull : Int) :
    Option Overflow :=
  (IntWord.signed32.check .multiply (today * today)).or <|
    (IntWord.signed32.check .add (crowd today sameDay)).or <|
    (IntWord.signed32.check .multiply (weight today sameDay)).or <|
    (IntWord.signed32.check .add (weight today sameDay + dumpCycle)).or <|
    IntWord.signed32.check .subtract (score dumpCycle today sameDay nextFull)

/-- The score of a record whose full dump would take `full` KB instead of `current`, if it
can be promoted. -/
def scoreOf (n : Night) (id full current : Nat) : Option Int :=
  let p := n.plan id
  let (fullsTonight, today, sameDay) := neighbours n p
  if sizeWith n full current > n.media.capacity then none
  else if Float.ofNat (n.totals.fullSize + full) > n.totals.balanced + n.totals.threshold
      ∧ fullsTonight > 0 then none
  else some (score (scoreCycle n) today sameDay p.nextFull)

def candidateOverflow? (n : Night) (id full current : Nat) : Option Overflow :=
  let p := n.plan id
  let (_, today, sameDay) := neighbours n p
  (sizesOverflow? (sizesWith n full)).or <|
    if (scoreOf n id full current).isSome then
      scoreOverflow? (scoreCycle n) today sameDay p.nextFull
    else none

/-- Score a record, and keep the better of it and the best so far. -/
def consider (best : Option (Nat × Nat)) (id : Nat) : Planning (Option (Nat × Nat)) := do
  setPlan id fun p => { p with promote := -1000 }
  match ← fullCandidate id with
  | none => pure best
  | some (slot, full) =>
    let p ← getPlan id
    if p.nextFull ≤ 0 ∨ p.nextFull > p.disk.maxPromoteDay then pure best
    else
      let current ← dumpMediaSize id
      let n ← get
      reckon (candidateOverflow? n id full current)
      match scoreOf n id full current with
      | none => pure best
      | some score =>
        setPlan id fun p => { p with promote := score }
        match best with
        | none => pure (some (id, slot))
        | some (b, _) =>
          if (n.plan b).promote < score then pure (some (id, slot)) else pure best

/-- Promote the incremental with the highest score, the first of several. The result tells
whether there was one. -/
def promoteBest : Planning Bool := do
  match ← (← get).scheduled.foldlM consider none with
  | none => pure false
  | some (id, slot) => do promote id slot false; pure true

/-! ## Hills -/

/-- Days farther ahead are not looked at. -/
def maxHillDays : Nat := 10000

/-- A day ahead and the size of the full dumps that come on it. -/
structure Hill where
  day : Nat
  size : Nat
  deriving DecidableEq, Repr

/-- The day on which the full dump of a disk comes, with overdue ones tonight. -/
def dueDay (n : Night) (id : Nat) : Nat := (n.plan id).nextFull.toNat

/-- Records whose full dumps come on a day and have their share in the balance. -/
def dueOn (n : Night) (day : Nat) : List Nat :=
  n.scheduled.filter fun id => (n.plan id).disk.takesFulls && dueDay n id = day

/-- How much the full dumps took that come on a day. -/
def heightOf (n : Night) (day : Nat) : Nat :=
  totalSize ((dueOn n day).map fun id => (n.plan id).lastFullSize)

/-- The hill of a day on which two full dumps or more come together. -/
def hillOn? (n : Night) (day : Nat) : Option Hill :=
  if (dueOn n day).length > 1 ∧ heightOf n day > 0 then some ⟨day, heightOf n day⟩ else none

def hillDays (n : Night) : List Nat := List.range (min n.settings.dumpCycle maxHillDays)

def hills (n : Night) : List Hill := (hillDays n).filterMap (hillOn? n)

/-- The higher hill comes first, then the earlier one. -/
def higher (a b : Hill) : Bool := a.size > b.size || (a.size = b.size && a.day ≤ b.day)

/-- The first record of a list that can be promoted from the day of a hill, and the place
of its full dump. -/
def findOnHill (day : Nat) : List Nat → Planning (Option (Nat × Nat))
  | [] => pure none
  | id :: rest => do
    let p ← getPlan id
    if p.nextFull ≠ day ∨ p.nextFull > p.disk.maxPromoteDay ∨ p.disk.takesFulls = false then
      findOnHill day rest
    else match ← fullCandidate id with
    | none => findOnHill day rest
    | some (slot, full) =>
      let current ← dumpMediaSize id
      let n ← get
      reckon (sizesOverflow? [n.totals.size + full])
      if sizeWith n full current > n.media.capacity then findOnHill day rest
      else pure (some (id, slot))

/-- Promote one record from the first hill of a list that has one to promote. -/
def breakUp : List Hill → Planning Bool
  | [] => pure false
  | hill :: rest => do
    match ← findOnHill hill.day (← get).scheduled with
    | some (id, slot) => promote id slot true; pure true
    | none => breakUp rest

/-- Break up the highest hill that can be broken up, if tonight has no full dump. The result
tells whether a dump was promoted. -/
def breakHill : Planning Bool := do
  let n ← get
  if n.totals.fullSize > 0 then pure false
  else
    reckon (sizesOverflow? ((hillDays n).map (heightOf n)))
    breakUp ((hills n).mergeSort higher)

/-! ## Balance -/

def wantsFulls (n : Night) : Bool :=
  n.totals.balanced - Float.ofNat n.totals.fullSize > n.totals.threshold

/-- Promote incrementals one after another while tonight wants more full dumps, `rounds`
times at most. -/
def promoteWhileWanted : (rounds : Nat) → Planning Unit
  | 0 => pure ()
  | rounds + 1 => do
    if wantsFulls (← get) then
      if ← promoteBest then promoteWhileWanted rounds

/-- Balance the schedule. Every promotion leaves an incremental less, so that after as many
rounds as there are dumps nothing is left to promote. -/
def balance : Planning Unit := do
  promoteWhileWanted ((← get).scheduled.length + 1)
  let _ ← breakHill

end NightlyBackup.Planning
