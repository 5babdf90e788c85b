import NightlyBackup.Night.Moves
import NightlyBackup.Text.Quoted

/-!
Making the schedule fit on tonight's media. Dumps that are too big for one run go first,
then full dumps fall back to their incrementals, then, if allowed, full dumps that the
operator asked for, and at last incrementals are dropped. Every change is logged with what
was before it, and the log is then gone through from the newest change back to undo
whatever fits after all.
-/

namespace NightlyBackup

/-- What was scheduled for a record before the schedule was changed. -/
structure BeforeImage where
  record : Nat
  /-- The dump was dropped, not downgraded. -/
  deleted : Bool
  slot : Nat
  level : Nat
  nativeSize : Nat
  mediaSize : Nat
  message : String
  deriving DecidableEq, Repr, Inhabited

/-- A night with the log of changes to its schedule, newest first. -/
structure Shrinking where
  night : Night
  log : List BeforeImage := []
  deriving Repr, Inhabited

/-- An action that changes the schedule and logs what it changes. -/
abbrev Delaying := EStateM Fault Shrinking

namespace Delaying

/-- Do something that needs no log. -/
def lift {α : Type} (act : Planning α) : Delaying α := fun s =>
  match act s.night with
  | .ok a n => .ok a { s with night := n }
  | .error fault n => .error fault { s with night := n }

def getNight : Delaying Night := do pure (← get).night

def exceeds : Delaying Bool := do
  let n ← getNight
  pure (n.totals.size > n.media.capacity)

def message (n : Night) (id level : Nat) (reason : String) : String :=
  Text.joinWith " "
    [n.hostName id, Text.quote (n.diskName id), n.timestamp, toString level,
      Text.quote ("[" ++ reason ++ "]")]

def uncount (size : Nat) (full : Bool) (n : Night) : Night :=
  let totals := { n.totals with
    size := n.totals.size - n.media.dumpCost size
    fullSize := if full then n.totals.fullSize - size else n.totals.fullSize }
  { n with totals := totals.reckon (sizesOverflow? [n.media.dumpCost size]) }

/-- Switch a record from its dump to its fallback. -/
def fallBack (id slot : Nat) : Planning Unit := do
  Planning.setPlan id fun p => { p with dump := some slot }
  let size ← Planning.dumpMediaSize id
  modify fun n =>
    let totals := { n.totals with size := n.totals.size + n.media.dumpCost size }
    { n with totals := totals.checked }
  Planning.resortScheduled id

def drop (id : Nat) (reason : String) : Planning Unit := do
  Planning.remove .scheduled id
  Planning.setPlan id fun p => { p with fault := some reason }

/-- Put off the dump of a scheduled record: drop it, or switch to its fallback if it has
one. -/
def delay (id : Nat) (delete : Bool) (reason : String) : Delaying Unit := do
  let p := (← getNight).plan id
  match p.dump with
  | none => throw (.wrongQueue id .scheduled)
  | some slot =>
    let level := p.dumpLevel?.getD 0
    let size ← lift (Planning.dumpMediaSize id)
    let n ← getNight
    lift (modify (uncount size (level = 0)))
    let image : BeforeImage :=
      { record := id, deleted := delete, slot := slot, level := level
        nativeSize := (p.nativeSize? slot).getD 0, mediaSize := size
        message := message n id level reason }
    modify fun s => { s with log := image :: s.log }
    match delete, p.degraded with
    | false, some fallback => lift (fallBack id fallback)
    | _, _ => lift (drop id reason)

/-- Why a full dump cannot fall back to an incremental, if it cannot. -/
def cannotFallBack? (p : DiskPlan) : Option String :=
  if p.disk.skipIncr then some "but cannot incremental dump skip-incr disk"
  else if p.isNew then some "but cannot incremental dump new disk"
  else if p.degraded.isNone then some "but no incremental estimate"
  else none

def reasonWith (front : String) (size : Nat) (back : String) : String :=
  Text.joinWith " " [front, toString size ++ " KB,", back]

/-! ## The passes -/

/-- Whether an oversize dump is dropped, and the reason to give. A fallback is taken only
if it fits on one volume. -/
def judgeOversize (n : Night) (p : DiskPlan) : Bool × String :=
  if p.isFull then
    match cannotFallBack? p with
    | some reason => (true, reason)
    | none =>
      if ((p.degraded.bind p.mediaSize?).getD 0) > n.media.volume then
        (true, "incremental dump also larger than tape")
      else (false, "full dump delayed, doing incremental")
  else (true, "skipping incremental")

/-- Put off the dump of a record if the dump is too big for one run. -/
def delayIfOversize (id : Nat) : Delaying Unit := do
  let size ← lift (Planning.dumpMediaSize id)
  let n ← getNight
  let p := n.plan id
  if size > n.media.ceiling p.disk then
    match p.isFull, cannotFallBack? p, p.degraded with
    | true, none, some slot => lift (Planning.setPlan id (·.fixMedia slot))
    | _, _, _ => pure ()
    let (delete, back) := judgeOversize n p
    delay id delete (reasonWith "dump larger than available tape space," size back)

def whileExceeding (act : Nat → Delaying Unit) : List Nat → Delaying Unit
  | [] => pure ()
  | id :: rest => do
    if ← exceeds then
      act id
      whileExceeding act rest

/-- Put off a full dump, with `softly` as the reason if there is a fallback. -/
def delayFull (softly : String) (id : Nat) : Delaying Unit := do
  let p := (← getNight).plan id
  let size ← lift (Planning.dumpMediaSize id)
  match cannotFallBack? p with
  | some reason => delay id true (reasonWith "dumps too big," size reason)
  | none => delay id false (reasonWith "dumps too big," size softly)

def dropIncremental (id : Nat) : Delaying Unit := do
  let size ← lift (Planning.dumpMediaSize id)
  delay id true (reasonWith "dumps way too big," size "must skip incremental dumps")

def latestDate : Int := 9223372036854775807

/-- An unknown date counts as the latest of all. -/
def dateKey (p : DiskPlan) : Int := p.fullDate.getD latestDate

/-- The lower priority comes first, then the older full dump. -/
def yieldsBefore (a b : DiskPlan) : Bool :=
  a.priority < b.priority || (a.priority = b.priority && dateKey a ≤ dateKey b)

/-- Full dumps that nobody asked for, in the order in which they yield. -/
def yieldingFulls (n : Night) : List Nat :=
  (n.scheduled.filter fun id =>
      (n.plan id).isFull && !(n.plan id).directives.forceFull).mergeSort
    fun a b => yieldsBefore (n.plan a) (n.plan b)

/-- `a` is to be kept rather than `b`: the higher priority first, then the older full
dump. Priorities may be compared by their negations, and these fit: where this is asked, all
full dumps were asked for by the operator, which has raised their priorities. -/
def keptBefore (a b : DiskPlan) : Bool :=
  a.priority > b.priority || (a.priority = b.priority && dateKey a < dateKey b)

def scheduledFulls (n : Night) : List Nat := n.scheduled.filter fun id => (n.plan id).isFull

/-- The full dump that is kept in any case, the first of the best. -/
def preserved? (n : Night) : Option Nat :=
  (scheduledFulls n).foldl
    (fun best id => match best with
      | none => some id
      | some b => if keptBefore (n.plan id) (n.plan b) then some id else some b) none

/-- Put off full dumps that the operator asked for, from `place` on towards the head of the
schedule, while the schedule does not fit. A dump that falls back takes its new place at
once; a place nearer to the head is come to again. `places` bounds how many are visited. -/
def delayForcedFrom (preserved : Option Nat) : Nat → Option Nat → Delaying Unit
  | 0, _ => pure ()
  | _, none => pure ()
  | places + 1, some id => do
    if ← exceeds then
      let n ← getNight
      let p := n.plan id
      if p.isFull && p.directives.forceFull && preserved ≠ some id then
        delayFull "full dump delayed" id
      delayForcedFrom preserved places (n.queues.prev? id)

/-- Put off full dumps that the operator asked for, without the one that is kept. No record
is visited more than twice: a dump that has fallen back already sorts ahead of nothing that
is nearer to the head, so that it stays behind the places that are still to come. -/
def delayForcedFulls : Delaying Unit := do
  if ← exceeds then
    let n ← getNight
    delayForcedFrom (preserved? n) (2 * n.scheduled.length) (n.queues.tail? .scheduled)

def incrementals (n : Night) : List Nat :=
  n.scheduled.reverse.filter fun id => !(n.plan id).isFull

def delayDumps : Delaying Unit := do
  (← getNight).scheduled.forM delayIfOversize
  whileExceeding (delayFull "full dump delayed, doing incremental")
    (yieldingFulls (← getNight))
  if (← getNight).settings.delayForcedFulls then delayForcedFulls
  whileExceeding dropIncremental (incrementals (← getNight))

/-! ## Undoing -/

/-- The size of the schedule with what was changed besides what is scheduled instead. -/
def sizeWithImage (n : Night) (image : BeforeImage) : Nat :=
  n.totals.size + if image.deleted then n.media.dumpCost image.mediaSize else image.mediaSize

/-- The size of the schedule if a change were undone; `none` if it cannot be undone any
more. -/
def sizeIfUndone (n : Night) (image : BeforeImage) (current : Nat) : Option Nat :=
  let onSchedule := n.queues.queueOf image.record = some .scheduled
  if image.deleted then if onSchedule then none else some (sizeWithImage n image)
  else if onSchedule then some (sizeWithImage n image - current)
  else none

def recountFull (size : Nat) (n : Night) : Night :=
  let totals := { n.totals with fullSize := n.totals.fullSize + size }
  { n with totals := totals.checked }

/-- Undo a change; the schedule then has the size `total`. -/
def undo (image : BeforeImage) (total : Nat) : Planning Unit := do
  modify fun n => { n with totals := { n.totals with size := total } }
  Planning.setPlan image.record fun p => { p with dump := some image.slot }
  if image.deleted then Planning.insertScheduled image.record
  else Planning.resortScheduled image.record
  if image.level = 0 then modify (recountFull image.mediaSize)

/-- Undo a change if the schedule fits then, and the dump is not too big for one run.
The result tells whether it was undone. -/
def undoIfFits (image : BeforeImage) : Planning Bool := do
  let n ← get
  let onSchedule := n.queues.queueOf image.record = some .scheduled
  let current ← if onSchedule && !image.deleted then Planning.dumpMediaSize image.record
    else pure 0
  match sizeIfUndone n image current with
  | some total =>
    Planning.reckon (sizesOverflow? [sizeWithImage n image])
    if total ≤ n.media.capacity ∧ image.mediaSize ≤ n.media.ceiling (n.plan image.record).disk
    then do undo image total; pure true
    else pure false
  | none => pure false

/-- Go through the log from the newest change on and undo what fits. The result holds the
changes that stand, oldest first; the log is empty afterwards. -/
def reinstateFrom (kept : List BeforeImage) : List BeforeImage → Delaying (List BeforeImage)
  | [] => pure kept
  | image :: older => do
    modify fun s => { s with log := older }
    if ← lift (undoIfFits image) then reinstateFrom kept older
    else reinstateFrom (image :: kept) older

def reinstate : Delaying (List BeforeImage) := do reinstateFrom [] (← get).log

def settle (image : BeforeImage) : Planning Unit := do
  let n ← get
  Planning.say (.delayed (n.hostName image.record) (n.diskName image.record) image.level
    image.deleted image.message)
  if n.queues.queueOf image.record = none then Planning.enqueue .failed image.record

end Delaying

namespace Planning

/-- Run an action that logs, with an empty log. -/
def withLog {α : Type} (act : Delaying α) : Planning α := fun n =>
  match act { night := n } with
  | .ok a s => .ok a s.night
  | .error fault s => .error fault s.night

def fit : Planning Unit := do
  let hadDumps := !(← get).scheduled.isEmpty
  let kept ← withLog do
    Delaying.delayDumps
    Delaying.reinstate
  kept.forM Delaying.settle
  let n ← get
  if hadDumps && n.scheduled.isEmpty then throw (.unfittable .nothingFits)
  if n.totals.size > n.media.capacity then
    throw (.unfittable (.tooBig n.totals.size n.media.capacity))

end Planning

end NightlyBackup
