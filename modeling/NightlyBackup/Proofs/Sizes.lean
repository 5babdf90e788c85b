import Mathlib.Logic.Relation
import NightlyBackup.DiskPlan

/-!
Sizes on media. To look at the size of a level makes it stand, which changes neither this size
nor any other. A dump that can be scheduled has a size that stands, and its fallback, if it
has one, is an incremental with a size.
-/

namespace NightlyBackup.DiskPlan

variable {p : DiskPlan} {slot other : Nat}

def StandsAt (p : DiskPlan) (slot : Nat) : Prop :=
  ∀ e, p.levels[slot]? = some e → e.media = p.mediaOf? e

def Sized (p : DiskPlan) (slot : Nat) : Prop := (p.mediaSize? slot).isSome

def levelAt? (p : DiskPlan) (slot : Nat) : Option Nat := p.levels[slot]?.map (·.level)

theorem map_getD_map (native media : Option Nat) (rated : Nat → Nat) :
    native.map (fun kb => (native.map fun kb => media.getD (rated kb)).getD (rated kb)) =
      native.map fun kb => media.getD (rated kb) := by
  cases native <;> rfl

theorem mediaOf?_fixed (p : DiskPlan) (e : LevelEstimate) :
    p.mediaOf? { e with media := p.mediaOf? e } = p.mediaOf? e :=
  map_getD_map e.size.kb? e.media (p.ratedSize e.level)

theorem levels_fixMedia (p : DiskPlan) (slot other : Nat) :
    (p.fixMedia slot).levels[other]? = (p.levels[other]?).map fun e =>
      if slot = other then { e with media := p.mediaOf? e } else e := by
  by_cases h : slot = other
  · subst h
    simp [fixMedia, List.getElem?_modify_eq]
  · simp [fixMedia, h]

@[simp]
theorem mediaSize?_fixMedia : (p.fixMedia slot).mediaSize? other = p.mediaSize? other := by
  unfold mediaSize?
  rw [levels_fixMedia]
  cases p.levels[other]? with
  | none => rfl
  | some e =>
    show p.mediaOf? _ = p.mediaOf? e
    split
    · exact mediaOf?_fixed p e
    · rfl

@[simp]
theorem levelAt?_fixMedia : (p.fixMedia slot).levelAt? other = p.levelAt? other := by
  unfold levelAt?
  rw [levels_fixMedia]
  cases p.levels[other]? with
  | none => rfl
  | some e =>
    simp only [Option.map_some]
    split <;> rfl

theorem dumpLevel?_eq (p : DiskPlan) : p.dumpLevel? = p.dump.bind p.levelAt? := rfl

@[simp]
theorem dump_fixMedia : (p.fixMedia slot).dump = p.dump := rfl

@[simp]
theorem degraded_fixMedia : (p.fixMedia slot).degraded = p.degraded := rfl

@[simp]
theorem dumpMediaSize_fixMedia : (p.fixMedia slot).dumpMediaSize = p.dumpMediaSize := by
  have h : (p.fixMedia slot).mediaSize? = p.mediaSize? := funext fun _ => mediaSize?_fixMedia
  rw [dumpMediaSize, dumpMediaSize, h, dump_fixMedia]

@[simp]
theorem isFull_fixMedia : (p.fixMedia slot).isFull = p.isFull := by
  have h : (p.fixMedia slot).levelAt? = p.levelAt? := funext fun _ => levelAt?_fixMedia
  rw [isFull, isFull, dumpLevel?_eq, dumpLevel?_eq, h, dump_fixMedia]

/-- A size that has been looked at stands. -/
theorem standsAt_fixMedia (p : DiskPlan) (slot : Nat) : (p.fixMedia slot).StandsAt slot := by
  intro e he
  rw [levels_fixMedia] at he
  obtain ⟨old, -, rfl⟩ := Option.map_eq_some_iff.mp he
  rw [if_pos rfl]
  exact (mediaOf?_fixed p old).symm

theorem StandsAt.fixMedia (h : p.StandsAt other) : (p.fixMedia slot).StandsAt other := by
  intro e he
  rw [levels_fixMedia] at he
  obtain ⟨old, hold, rfl⟩ := Option.map_eq_some_iff.mp he
  split
  · exact (mediaOf?_fixed p old).symm
  · exact h old hold

/-- To look at a size that stands changes nothing. -/
theorem StandsAt.fixMedia_eq (h : p.StandsAt slot) : p.fixMedia slot = p := by
  have hl : (p.levels.modify slot fun e => { e with media := p.mediaOf? e }) = p.levels := by
    refine List.ext_getElem? fun i => ?_
    by_cases hi : slot = i
    · subst hi
      rw [List.getElem?_modify_eq]
      cases he : p.levels[slot]? with
      | none => rfl
      | some e =>
        show some { e with media := p.mediaOf? e } = some e
        rw [← h e he]
    · simp [hi]
  rw [DiskPlan.fixMedia, hl]

/-! ## Sizes that are held on to -/

def Held : DiskPlan → DiskPlan → Prop :=
  Relation.ReflTransGen fun a b => ∃ slot, b = a.fixMedia slot

theorem Held.keeps {α : Type} {a b : DiskPlan} {f : DiskPlan → α}
    (hf : ∀ a slot, f (a.fixMedia slot) = f a) (h : a.Held b) : f b = f a := by
  induction h with
  | refl => rfl
  | tail _ hstep ih =>
    obtain ⟨slot, rfl⟩ := hstep
    exact (hf _ slot).trans ih

theorem held_fixMedia (a : DiskPlan) (slot : Nat) : a.Held (a.fixMedia slot) :=
  .single ⟨slot, rfl⟩

/-! ## Dumps that can be scheduled -/

/-- The chosen dump has a size that stands, and the fallback is an incremental with a size. -/
structure Planned (p : DiskPlan) : Prop where
  sized : ∃ slot, p.dump = some slot ∧ p.Sized slot
  stands : ∀ {slot}, p.dump = some slot → p.StandsAt slot
  fallback : ∀ {slot}, p.degraded = some slot →
    p.Sized slot ∧ ∃ level, p.levelAt? slot = some level ∧ 0 < level

theorem Planned.fixDumpMedia_eq (h : p.Planned) : p.fixDumpMedia = p := by
  obtain ⟨slot, hd, -⟩ := h.sized
  simp only [fixDumpMedia, hd]
  exact (h.stands hd).fixMedia_eq

theorem Planned.fixMedia (h : p.Planned) : (p.fixMedia slot).Planned := by
  refine ⟨?_, fun hd => (h.stands hd).fixMedia, fun hd => ?_⟩
  · simpa [Sized] using h.sized
  · simpa [Sized] using h.fallback hd

/-- A scheduled dump with another fallback. -/
theorem Planned.switch {d : Nat} (h : p.Planned) (hd : p.degraded = some d) :
    (DiskPlan.fixMedia { p with dump := some d } d).Planned := by
  refine ⟨⟨d, rfl, ?_⟩, ?_, fun hs => ?_⟩
  · rw [Sized, mediaSize?_fixMedia]
    exact (h.fallback hd).1
  · rintro slot hs
    cases hs
    exact standsAt_fixMedia _ d
  · rw [Sized, mediaSize?_fixMedia, levelAt?_fixMedia]
    exact h.fallback hs

/-- A plan with its dump at `slot`. -/
theorem isFull_eq_of_dump {level : Nat} (hd : p.dump = some slot)
    (hl : p.levelAt? slot = some level) : p.isFull = decide (level = 0) := by
  simp [isFull, dumpLevel?_eq, hd, hl]

theorem dumpMediaSize_of_dump (hd : p.dump = some slot) :
    p.dumpMediaSize = (p.mediaSize? slot).getD 0 := by
  simp [dumpMediaSize, hd]

/-- A level with a size is there. -/
theorem levelAt?_isSome (h : p.Sized slot) : (p.levelAt? slot).isSome := by
  unfold Sized mediaSize? at h
  unfold levelAt?
  cases e : p.levels[slot]? with
  | none => simp [e] at h
  | some e => rfl

end NightlyBackup.DiskPlan
