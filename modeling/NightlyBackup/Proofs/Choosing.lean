import NightlyBackup.Night.Choice
import NightlyBackup.Proofs.Sizes

/-!
The choice of a dump. Whatever is chosen for tonight has a size, and what it falls back to is
an incremental that has one.
-/

namespace NightlyBackup.DiskPlan

variable {p : DiskPlan} {slot level : Nat}

theorem sized_of_sizedSlot? (h : p.sizedSlot? level = some slot) :
    p.Sized slot ∧ p.levelAt? slot = some level := by
  obtain ⟨hlt, hfound, -⟩ := List.findIdx?_eq_some_iff_getElem.mp h
  simp only [Bool.and_eq_true, decide_eq_true_eq] at hfound
  simp [Sized, mediaSize?, levelAt?, mediaOf?, List.getElem?_eq_getElem hlt, hfound.1, hfound.2]

theorem sized_of_positiveSlot? (h : p.positiveSlot? level = some slot) :
    p.Sized slot ∧ p.levelAt? slot = some level :=
  sized_of_sizedSlot? (Option.filter_eq_some_iff.mp h).1

def PickSized (p : DiskPlan) (pick : Pick) : Prop := ∀ slot, pick.slot? = some slot → p.Sized slot

theorem pickAt_sized (p : DiskPlan) (level : Nat) : p.PickSized (p.pickAt level) := by
  intro slot h
  unfold pickAt at h
  split at h
  · rename_i found hfound
    cases h
    exact (sized_of_sizedSlot? hfound).1
  · cases h

theorem pickRaised_sized {last base : Nat} (hbase : p.Sized base) :
    p.PickSized (p.pickRaised last base) := by
  intro slot h
  simp only [pickRaised] at h
  split at h
  · cases h
    exact hbase
  · split at h
    · cases h
      exact hbase
    · rename_i next hnext
      split at h
      · cases h
        exact hbase
      · cases h
        exact (sized_of_sizedSlot? hnext).1

theorem pickIncremental_sized (p : DiskPlan) : p.PickSized p.pickIncremental := by
  intro slot h
  unfold pickIncremental at h
  split at h
  · split at h
    · rename_i found hfound
      cases h
      exact (sized_of_positiveSlot? hfound).1
    · cases h
  · rename_i last _
    split at h
    · exact pickAt_sized p 1 slot h
    · split at h
      · rename_i base hbase
        exact pickRaised_sized (sized_of_sizedSlot? hbase).1 slot h
      · split at h
        · rename_i found hfound
          cases h
          exact (sized_of_positiveSlot? hfound).1
        · cases h

theorem resolve_sized (h : p.resolve p.pickIncremental = some slot) : p.Sized slot := by
  have hpick := pickIncremental_sized p
  unfold resolve at h
  split at h
  · rename_i found hfound
    cases h
    exact hpick slot (by rw [hfound]; rfl)
  · rename_i found _ hfound
    cases h
    exact hpick slot (by rw [hfound]; rfl)
  · exact (sized_of_sizedSlot? h).1
  · cases h

structure Choosable (p : DiskPlan) (c : Choice) : Prop where
  dump : ∀ {slot}, c.dump = some slot → p.Sized slot
  degraded : ∀ {slot}, c.degraded = some slot →
    p.Sized slot ∧ ∃ level, p.levelAt? slot = some level ∧ 0 < level

theorem chooseFallback_choosable {full : Nat} (h : p.Sized full) :
    p.Choosable (p.chooseFallback full) := by
  unfold chooseFallback
  split
  · constructor
    · rintro slot hs
      cases hs
      exact h
    · simp
  · constructor
    · rintro slot hs
      cases hs
      exact h
    · intro _ hd
      obtain ⟨hr, hlevel⟩ := Option.filter_eq_some_iff.mp hd
      have hsized := resolve_sized hr
      obtain ⟨level, hl⟩ := Option.isSome_iff_exists.mp (levelAt?_isSome hsized)
      refine ⟨hsized, level, hl, ?_⟩
      change decide ((p.levelAt? _).getD 0 > 0) = true at hlevel
      simpa [hl] using hlevel

theorem chooseFirst_mem {places : List (Option Nat)} (h : chooseFirst places = some slot) :
    some slot ∈ places := by
  induction places with
  | nil => cases h
  | cons place places ih =>
    cases place with
    | none => exact List.mem_cons_of_mem _ (ih h)
    | some found =>
      cases h
      exact List.mem_cons_self ..

/-- **Choice.** Every dump that is chosen can be made. -/
theorem choose_choosable (p : DiskPlan) : p.Choosable p.choose := by
  unfold choose
  split
  · split
    · rename_i full hfull
      exact chooseFallback_choosable (sized_of_sizedSlot? hfull).1
    · exact ⟨fun h => resolve_sized h, by simp⟩
  · refine ⟨fun {slot} h => ?_, by simp⟩
    have hm := chooseFirst_mem h
    simp only [List.mem_cons, List.not_mem_nil, or_false] at hm
    rcases hm with e | e | e | e
    · exact pickIncremental_sized p slot e.symm
    · obtain ⟨last, -, hs⟩ := Option.bind_eq_some_iff.mp e.symm
      exact (sized_of_sizedSlot? hs).1
    · exact (sized_of_sizedSlot? e.symm).1
    · exact (sized_of_sizedSlot? e.symm).1

end NightlyBackup.DiskPlan
