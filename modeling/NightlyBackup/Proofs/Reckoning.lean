import NightlyBackup.Proofs.Beginning

/-!
Reckoning with an overflow. The first overflow of a night stands, and nothing but that is known of
it changes: the running sizes are exact all the same, and so is everything that follows from them.
As long as none is known, the running sizes fit their words, however they are counted.
-/

namespace NightlyBackup

variable {n m : Night} {id j h : Nat} {t u v : Totals} {what other : Option Overflow}

namespace Totals

/-- `u` is `t`, with one more overflow reckoned with, if any. -/
def Reckons (t u : Totals) : Prop := ∃ what, u = t.reckon what

theorem reckon_reckon : (t.reckon what).reckon other = t.reckon (what.or other) := by
  simp [reckon, Option.or_assoc]

@[simp]
theorem reckon_none : t.reckon none = t := by simp [reckon]

namespace Reckons

theorem refl : t.Reckons t := ⟨none, reckon_none.symm⟩

theorem reckon (h : t.Reckons u) (what : Option Overflow) : t.Reckons (u.reckon what) := by
  obtain ⟨other, rfl⟩ := h
  exact ⟨_, reckon_reckon⟩

theorem trans (h : t.Reckons u) (h' : u.Reckons v) : t.Reckons v := by
  obtain ⟨what, rfl⟩ := h'
  exact h.reckon what

theorem size (h : t.Reckons u) : u.size = t.size := by
  obtain ⟨what, rfl⟩ := h
  rfl

theorem fullSize (h : t.Reckons u) : u.fullSize = t.fullSize := by
  obtain ⟨what, rfl⟩ := h
  rfl

end Reckons

end Totals

/-! ## Running sizes that fit -/

@[simp]
theorem sizesOverflow?_eq_none {sums : List Nat} :
    sizesOverflow? sums = none ↔ ∀ sum ∈ sums, IntWord.unsigned64.Holds sum := by
  simp [sizesOverflow?]

theorem IntWord.holds_of_le {small size : Nat} (h : IntWord.unsigned64.Holds size)
    (hle : small ≤ size) : IntWord.unsigned64.Holds small :=
  ⟨Int.natCast_nonneg small, Int.le_trans (Int.ofNat_le.mpr hle) h.2⟩

namespace Totals

structure Fit (t : Totals) : Prop where
  size : IntWord.unsigned64.Holds t.size
  fullSize : IntWord.unsigned64.Holds t.fullSize

/-- The running sizes `u` come after `t`: an overflow that is known of stands, and as long as none
is, sizes that fitted their words still do. -/
structure Follows (t u : Totals) : Prop where
  overflow : u.overflow = none → t.overflow = none
  fit : u.overflow = none → t.Fit → u.Fit

theorem overflow_reckon (h : (t.reckon what).overflow = none) : t.overflow = none ∧ what = none :=
  Option.or_eq_none_iff.mp h

namespace Follows

theorem refl : t.Follows t := ⟨id, fun _ => id⟩

theorem trans (h : t.Follows u) (h' : u.Follows v) : t.Follows v :=
  ⟨fun hv => h.overflow (h'.overflow hv), fun hv ht => h'.fit hv (h.fit (h'.overflow hv) ht)⟩

/-- Sums that are reckoned with fit. -/
theorem reckon (hkept : u.overflow = t.overflow)
    (hfit : what = none → t.Fit → u.Fit) : t.Follows (u.reckon what) where
  overflow h := hkept ▸ (overflow_reckon h).1
  fit h ht := by
    obtain ⟨hsize, hfull⟩ := hfit (overflow_reckon h).2 ht
    exact ⟨hsize, hfull⟩

theorem checked (hkept : u.overflow = t.overflow) : t.Follows u.checked :=
  reckon hkept fun h _ => by
    obtain ⟨hsize, hfull⟩ := by simpa using h
    exact ⟨hsize, hfull⟩

/-- Sizes that get no bigger fit still. -/
theorem of_le (hkept : u.overflow = t.overflow) (hsize : u.size ≤ t.size)
    (hfull : u.fullSize ≤ t.fullSize) : t.Follows u :=
  ⟨fun h => hkept ▸ h, fun _ ht => ⟨IntWord.holds_of_le ht.size hsize,
    IntWord.holds_of_le ht.fullSize hfull⟩⟩

end Follows

theorem Reckons.follows (h : t.Reckons u) : t.Follows u := by
  obtain ⟨what, rfl⟩ := h
  exact .reckon rfl fun _ => id

end Totals

namespace Night

@[simp]
theorem plan_reckon : (n.reckon what).plan j = n.plan j := rfl

@[simp]
theorem place_reckon : (n.reckon what).place j = n.place j := rfl

@[simp]
theorem host_reckon : (n.reckon what).host h = n.host h := rfl

@[simp]
theorem scheduled_reckon : (n.reckon what).scheduled = n.scheduled := rfl

@[simp]
theorem media_reckon : (n.reckon what).media = n.media := rfl

@[simp]
theorem reckon_none : n.reckon none = n := by simp [reckon]

theorem reckon_reckon : (n.reckon what).reckon other = n.reckon (what.or other) := by
  simp [reckon, Totals.reckon_reckon]

theorem Sound.reckon (hs : n.Sound) (what : Option Overflow) : (n.reckon what).Sound :=
  ⟨hs.valid, hs.registered⟩

theorem sameDisks_reckon (n : Night) (what : Option Overflow) : n.SameDisks (n.reckon what) :=
  ⟨rfl, fun _ => rfl, fun _ => rfl, rfl, fun _ => rfl, fun _ => rfl⟩

end Night

namespace Planning

@[simp]
theorem leads_reckon {post : Unit → Night → Prop} {fail : Fault → Night → Prop} :
    Leads (reckon what) n post fail ↔ post () (n.reckon what) := Iff.rfl

end Planning

end NightlyBackup
