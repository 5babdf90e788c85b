import NightlyBackup.Event
import NightlyBackup.History.Recall
import NightlyBackup.Settings

/-!
The outlook for one disk: what its history, the operator's directives and its own options
mean for tonight. The outlook ends in a verdict: the disk fails, is left out, or the sizes
of some levels are asked for. Levels are kept in unsigned 32-bit words, days and priorities
in signed ones.
-/

namespace NightlyBackup

def levelLimit : Nat := 400

/-- How many levels of a disk are asked for at most. -/
def maxLevels : Nat := 3

/-- An overwrite of a tape within this many runs is announced. -/
def overwriteHorizon : Int := 5

def priorityLimit : Int := 2147483647

/-- What is known about a disk so far, and what the operator is told about it. -/
structure Outlook where
  disk : Disk
  history : History
  directives : Directives
  lastLevel : Option Nat
  nextFull : Int
  degradedReason : Option String := none
  /-- Levels to ask for. -/
  wanted : List Nat := []
  notices : List Event := []
  /-- The first operation so far whose result its word does not hold. -/
  overflow : Option Overflow := none
  deriving Repr

inductive Verdict
  | fail (reason : String)
  | leaveOut (level : Nat) (reason : String)
  | ask (levels : List Nat)
  deriving DecidableEq, Repr

/-- Why a disk with a direct data path cannot be dumped as it is configured. -/
def Disk.refusal? (d : Disk) : Option String :=
  if !d.directTcp then none
  else if d.compress ≠ .neither then some "Can't compress directtcp data-path"
  else if d.encrypt ≠ .neither then some "Can't encrypt directtcp data-path"
  else if d.holding = .required then some "Holding disk can't be use for directtcp data-path"
  else none

namespace Outlook

def ofHistory (d : Disk) (h : History) (r : Rotation) (reserve : Nat) (today : Int) :
    Outlook where
  disk := d
  history := h
  directives := h.directives
  lastLevel := h.lastDumped r reserve
  nextFull := h.daysToFull d.strategy d.dumpCycle today
  overflow := h.daysOverflow? d.strategy d.dumpCycle today

def title (o : Outlook) : String := o.disk.host ++ ":" ++ o.disk.name

def say (o : Outlook) (e : Event) : Outlook := { o with notices := o.notices ++ [e] }

def reckon (o : Outlook) (what : Option Overflow) : Outlook :=
  { o with overflow := o.overflow.or what }

def tell (o : Outlook) (message : String) : Outlook :=
  o.say (.directiveApplied o.disk.host o.disk.name message)

/-- Give a reason against a fallback, unless there is one. -/
def excuse (o : Outlook) (reason : String) : Outlook :=
  { o with degradedReason := some (o.degradedReason.getD reason) }

def force (o : Outlook) (dumpCycle : Nat) : Outlook :=
  if o.directives.forceFull then
    if o.disk.strategy.skipsFulls then
      { o with directives := { o.directives with forceFull := false } }.say
        (.warning ("Cannot force full dump of " ++ o.title ++ " with " ++ o.disk.strategy.name
          ++ " option."))
    else
      { o with
        degradedReason := some "force-full disk can't be dumped in degraded mode"
        lastLevel := none
        nextFull := -(min (dumpCycle : Int) Calendar.dayLimit) }.tell
        ("Forcing full dump of " ++ o.title ++ " as directed.")
  else if o.disk.strategy = .noFull then { o with lastLevel := some 1 }
  else o

/-- Announce that the tape of the last dump at `level` is written again soon. -/
def announceOverwrite (o : Outlook) (level : Nat) (label : String) (runs : Int) : Outlook :=
  if runs ≤ overwriteHorizon then
    o.say (.overwriteWarning o.disk.host o.disk.name level label runs)
  else o

def watchFull (o : Outlook) (r : Rotation) : Outlook :=
  match o.lastLevel, o.history.levelLabel? 0 with
  | some _, some label => o.announceOverwrite 0 label (r.runsUntilOverwrite label)
  | _, _ => o

/-- Look at the tape of the last dump at level 1. If this run writes it again, level 1 has
to be made anew. -/
def watchLevel1 (o : Outlook) (r : Rotation) : Outlook :=
  match o.lastLevel, o.history.levelLabel? 1 with
  | some last, some label =>
    if last > 1 then
      let runs := r.runsUntilOverwrite label
      let o := o.announceOverwrite 1 label runs
      if runs = 0 then { o with lastLevel := some 0 } else o
    else o
  | _, _ => o

/-- The priority of the dump: a day overdue raises it by one, and so does a directive to
make a full dump. -/
def priority (o : Outlook) : Int :=
  if o.nextFull < 0 then min (o.disk.priority - o.nextFull) priorityLimit
  else if o.directives.forceFull then o.disk.priority + 1
  else o.disk.priority

/-- Raising the priority by one may overflow; a day overdue raises it to its limit at most. -/
def reckonPriority (o : Outlook) : Outlook :=
  if 0 ≤ o.nextFull ∧ o.directives.forceFull then
    o.reckon (IntWord.signed32.check .add o.priority)
  else o

/-- Full dumps of the disk are made by something else. -/
def fullsElsewhere (o : Outlook) : Bool :=
  o.disk.skipFull && o.disk.strategy ≠ .noIncremental

/-- For a disk whose full dumps are made elsewhere: a missing level counts as a full dump,
and the operator hears of one due tomorrow. -/
def expectFullElsewhere (o : Outlook) : Outlook :=
  if o.fullsElsewhere then
    let o := { o with lastLevel := some (o.lastLevel.getD 0) }
    if o.nextFull = 1 then
      o.say (.warning ("Skipping full dump of " ++ o.title ++ " tomorrow."))
    else o
  else o

/-- Where tapes count and none of them holds a dump of the disk, a full dump is due. -/
def trustTapes (o : Outlook) (reserve : Nat) : Outlook :=
  if o.lastLevel.isNone ∧ o.nextFull > 0 ∧ o.disk.strategy.skipsFulls = false ∧ reserve = 100 then
    { o with nextFull := 0 }.say
      (.warning (o.title ++ " mismatch: no tapelist record, but curinfo next_level0: "
        ++ toString o.nextFull ++ "."))
  else o

/-! ## Levels to ask for -/

def want (o : Outlook) (level : Nat) : Outlook := { o with wanted := o.wanted ++ [level] }

def wantsFull (o : Outlook) : Bool :=
  o.disk.strategy = .noIncremental
    || (!o.disk.skipFull
        && (!o.directives.forceBump || o.disk.skipIncr || o.lastLevel.isNone))

def wantFull (o : Outlook) : Outlook :=
  let o :=
    if o.directives.forceBump && o.lastLevel.isNone then
      o.tell ("Remove force-bump command of " ++ o.title ++ " because it's a new disk.")
    else o
  if o.disk.strategy.skipsFulls then o
  else
    let o := o.want 0
    if o.lastLevel.isNone then o.excuse "new disk can't be dumped in degraded mode"
    else if o.disk.strategy = .noIncremental then
      o.excuse "strategy NOINC can't be dumped in degraded mode"
    else o

/-- Level `last` is big enough, and has been made for enough runs, to be moved up from. A size
of zero is not known. -/
def outgrown (o : Outlook) (last runs : Nat) : Prop :=
  o.history.levelSize last = 0 ∨
    (o.history.levelSize last > o.disk.bump.threshold last (o.history.levelSize 0) ∧
      runs ≥ o.disk.bump.days)

instance (o : Outlook) (last runs : Nat) : Decidable (o.outgrown last runs) :=
  inferInstanceAs (Decidable (_ ∨ _))

/-- Reckon with the level above `last`, if it is looked at. -/
def reckonAbove (o : Outlook) (last runs : Nat) : Outlook :=
  if !o.directives.forceNoBump && (o.directives.forceBump || o.outgrown last runs) then
    o.reckon (IntWord.unsigned32.check .add (last + 1))
  else o

/-- Ask for the incrementals that follow a dump at level `last`, which has been made for
`runs` runs. -/
def wantAfter (o : Outlook) (last runs : Nat) : Outlook :=
  if o.directives.forceNoBump then
    { (if last > 0 then o.want last else o) with
      degradedReason := some "force-no-bump disk can't be dumped in degraded mode" }.tell
      ("Preventing bump of " ++ o.title ++ " as directed.")
  else if o.directives.forceBump ∧ last + 1 < levelLimit then
    { o.want (last + 1) with
      degradedReason := some "force-bump disk can't be dumped in degraded mode" }.tell
      ("Bumping of " ++ o.title ++ " at level " ++ toString (last + 1) ++ " as directed.")
  else if last = 0 then o.want 1
  else
    let above := o.outgrown last runs ∧ last + 1 < levelLimit
    let o := o.want last
    if above then o.want (last + 1) else o

def wantIncrementals (o : Outlook) (runs : Nat) : Outlook :=
  match o.lastLevel with
  | none =>
    let o := o.excuse "new disk can't be dumped in degraded mode"
    if o.disk.strategy.skipsFulls then o.want 1 else o
  | some last => (o.reckonAbove last runs).wantAfter last runs

def chooseLevels (o : Outlook) (runs : Nat) : Outlook :=
  if o.directives.forceLevel1 ∧ o.disk.strategy ≠ .noIncremental then
    ((o.tell ("Forcing level 1 of " ++ o.title ++ " as directed.")).want 1).excuse
      "force-level-1 disk can't be dumped in degraded mode"
  else
    let o := if o.wantsFull then o.wantFull else o
    if o.disk.skipIncr || o.disk.strategy = .noIncremental then o
    else o.wantIncrementals runs

/-- Drop levels that repeat the one before. -/
def dropRepeats : List Nat → List Nat
  | a :: b :: rest => if a = b then dropRepeats (b :: rest) else a :: dropRepeats (b :: rest)
  | levels => levels

/-! ## The verdict -/

def judge (o : Outlook) (s : Settings) (r : Rotation) : Outlook × Verdict :=
  let o := (((o.force s.dumpCycle).watchFull r).watchLevel1 r).reckonPriority
  if o.fullsElsewhere && o.nextFull ≤ 0 then (o, .leaveOut 0 "skip-full")
  else
    let o := o.expectFullElsewhere
    if o.disk.strategy = .incrementalOnly && o.lastLevel.isNone && !o.directives.forceFull then
      (o, .fail "Skipping incronly because no full dump were done")
    else if o.disk.skipIncr && o.nextFull > 0 then (o, .leaveOut 1 "skip-incr")
    else
      let o := o.trustTapes s.reserve
      let o := o.chooseLevels (o.history.runsAt o.lastLevel r s.reserve s.runTapes)
      let levels := (dropRepeats o.wanted).take maxLevels
      if levels.isEmpty then (o, .fail "no dump level can be estimated") else (o, .ask levels)

end Outlook

end NightlyBackup
