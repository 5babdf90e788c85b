/-!
What is known of a disk's earlier dumps: the last dump at each level, every dump in order,
recent rates and compression ratios, and directives of the operator that are still to be
carried out.
-/

namespace NightlyBackup

/-- What the operator wants done with a disk in its next run. -/
structure Directives where
  forceFull : Bool := false
  forceBump : Bool := false
  forceNoBump : Bool := false
  forceLevel1 : Bool := false
  deriving DecidableEq, Repr

def bitSet (bits weight : Int) : Bool := bits / weight % 2 = 1

/-- Directives as a set of bits; other bits have no meaning. -/
def Directives.ofBits (bits : Int) : Directives where
  forceFull := bitSet bits 1
  forceBump := bitSet bits 2
  forceNoBump := bitSet bits 4
  forceLevel1 := bitSet bits 8

/-- The last three measurements of something; a negative one is unknown. -/
structure Recent where
  newest : Float := -1.0
  previous : Float := -1.0
  oldest : Float := -1.0
  deriving Repr

def Recent.toList (r : Recent) : List Float := [r.newest, r.previous, r.oldest]

/-- The average of the known measurements, the newest with weight 3, the oldest with
weight 1, or `default` when none is known. -/
def Recent.average (r : Recent) (default : Float) : Float :=
  let (sum, weight) := [(r.newest, 3.0), (r.previous, 2.0), (r.oldest, 1.0)].foldl
    (fun (sum, weight) (value, w) =>
      if value ≥ 0.0 then (sum + value * w, weight + w) else (sum, weight))
    ((0.0, 0.0) : Float × Float)
  if weight == 0.0 then default else sum / weight

structure Performance where
  rate : Recent := {}
  comp : Recent := {}
  deriving Repr

structure LevelRecord where
  size : Nat
  mediaSize : Nat
  seconds : Nat
  /-- When it was made; `none` if there was never a dump at this level. -/
  date : Option Int
  /-- The tape that holds it. -/
  label : Option String
  deriving DecidableEq, Repr

def totalSize (sizes : List Nat) : Nat := sizes.foldr (· + ·) 0

structure PastDump where
  level : Nat
  size : Nat
  mediaSize : Nat
  seconds : Nat
  date : Int
  deriving DecidableEq, Repr

structure History where
  directives : Directives := {}
  /-- The last dump at each level, in ascending order of levels. -/
  levels : List (Nat × LevelRecord) := []
  full : Performance := {}
  incr : Performance := {}
  lastLevel : Option Nat := none
  consecutiveRuns : Option Nat := none
  /-- Every dump, oldest first. -/
  dumps : List PastDump := []
  deriving Repr

namespace History

def level? (h : History) (level : Nat) : Option LevelRecord := h.levels.lookup level

def levelDate? (h : History) (level : Nat) : Option Int :=
  (h.level? level).bind (·.date)

/-- The size of the last dump at a level, zero if there is none. -/
def levelSize (h : History) (level : Nat) : Nat :=
  ((h.level? level).map (·.size)).getD 0

/-- The tape of the last dump at a level; an empty label is none. -/
def levelLabel? (h : History) (level : Nat) : Option String :=
  ((h.level? level).bind (·.label)).filter (· ≠ "")

end History

end NightlyBackup
