import Mathlib.Data.List.Induction
import Mathlib.Data.List.Nodup

/-!
Elements of lists that are picked: the first one that no other beats, and the last one of some
kind. What is sorted comes in turn, and each in its turn is the first of the best that are left.
-/

namespace NightlyBackup

variable {α : Type} {le le' : α → α → Prop} {P : α → Prop} {as rest all front back : List α}
  {a b : α}

/-! ## The first of the best -/

/-- `a` is the first element that none beats: no element in front of it is as good, and none behind
it is better. -/
def FirstBest (le : α → α → Prop) (as : List α) (a : α) : Prop :=
  ∃ front back, as = front ++ a :: back ∧ (∀ b ∈ front, ¬le b a) ∧ ∀ b ∈ back, le a b

namespace FirstBest

theorem mem (h : FirstBest le as a) : a ∈ as := by
  obtain ⟨front, back, rfl, -⟩ := h
  exact List.mem_append_right front List.mem_cons_self

theorem unique (h : FirstBest le as a) (h' : FirstBest le as b) : a = b := by
  obtain ⟨front, back, rfl, hfront, hback⟩ := h
  obtain ⟨front', back', hsplit, hfront', hback'⟩ := h'
  rcases List.append_eq_append_iff.mp hsplit with ⟨mid, rfl, e⟩ | ⟨mid, rfl, e⟩
  · cases mid with
    | nil => exact (List.cons.inj e).1
    | cons c mid =>
      obtain ⟨rfl, rfl⟩ := List.cons.inj e
      exact absurd (hback b (by simp)) (hfront' a (by simp))
  · cases mid with
    | nil => exact (List.cons.inj e).1.symm
    | cons c mid =>
      obtain ⟨rfl, rfl⟩ := List.cons.inj e
      exact absurd (hback' a (by simp)) (hfront b (by simp))

/-- The first of the best stays so when others are left out. -/
theorem filter {p : α → Bool} (h : FirstBest le as a) (hp : p a = true)
    (hle : ∀ b ∈ as, p b = true → (le' b a ↔ le b a) ∧ (le' a b ↔ le a b)) :
    FirstBest le' (as.filter p) a := by
  obtain ⟨front, back, rfl, hfront, hback⟩ := h
  refine ⟨front.filter p, back.filter p, by simp [hp], fun b hb => ?_, fun b hb => ?_⟩
  · obtain ⟨hmem, hpb⟩ := List.mem_filter.mp hb
    rw [(hle b (List.mem_append_left _ hmem) hpb).1]
    exact hfront b hmem
  · obtain ⟨hmem, hpb⟩ := List.mem_filter.mp hb
    rw [(hle b (List.mem_append_right _ (List.mem_cons_of_mem a hmem)) hpb).2]
    exact hback b hmem

end FirstBest

def BestOf (le : α → α → Prop) (as : List α) : Option α → Prop
  | none => as = []
  | some a => FirstBest le as a

theorem BestOf.firstBest_iff {best : Option α} (h : BestOf le as best) :
    FirstBest le as a ↔ best = some a := by
  cases best with
  | none =>
    obtain rfl : as = [] := h
    constructor
    · exact fun ha => absurd ha.mem List.not_mem_nil
    · exact fun e => nomatch e
  | some b =>
    constructor
    · exact fun ha => congrArg some (FirstBest.unique h ha)
    · rintro ⟨⟩
      exact h

/-- The first of the best is found by going through the list once. -/
theorem foldl_bestOf {f : Option α → α → Option α}
    (trans : ∀ {a b c}, le a b → le b c → le a c) (total : ∀ a b, le a b ∨ le b a)
    (hnone : ∀ b, f none b = some b) (hbetter : ∀ {a b}, ¬le a b → f (some a) b = some b)
    (hstays : ∀ {a b}, le a b → f (some a) b = some a) (as : List α) :
    BestOf le as (as.foldl f none) := by
  induction as using List.reverseRecOn with
  | nil => rfl
  | append_singleton as b ih =>
    rw [List.foldl_append, List.foldl_cons, List.foldl_nil]
    cases hbest : as.foldl f none with
    | none =>
      rw [hbest] at ih
      obtain rfl : as = [] := ih
      rw [hnone]
      exact ⟨[], [], rfl, by simp, by simp⟩
    | some a =>
      rw [hbest] at ih
      obtain ⟨front, back, rfl, hfront, hback⟩ := ih
      by_cases hab : le a b
      · rw [hstays hab]
        refine ⟨front, back ++ [b], by simp, hfront, fun c hc => ?_⟩
        rcases List.mem_append.mp hc with hc | hc
        · exact hback c hc
        · exact List.mem_singleton.mp hc ▸ hab
      · rw [hbetter hab]
        have hba : le b a := (total a b).resolve_left hab
        refine ⟨front ++ a :: back, [], rfl, fun c hc hcb => ?_, by simp⟩
        rcases List.mem_append.mp hc with hc | hc
        · exact hfront c hc (trans hcb hba)
        · rcases List.mem_cons.mp hc with rfl | hc
          · exact hab hcb
          · exact hab (trans (hback c hc) hcb)

/-! ## The last of a kind -/

/-- `a` is the last element with `P`. -/
def LastOf (P : α → Prop) (as : List α) (a : α) : Prop :=
  ∃ front back, as = front ++ a :: back ∧ P a ∧ ∀ b ∈ back, ¬P b

theorem exists_lastOf (ha : a ∈ as) (hP : P a) : ∃ b, LastOf P as b := by
  induction as generalizing a with
  | nil => cases ha
  | cons c as ih =>
    by_cases hlater : ∃ b ∈ as, P b
    · obtain ⟨b, hb, hPb⟩ := hlater
      obtain ⟨d, front, back, rfl, hd⟩ := ih hb hPb
      exact ⟨d, c :: front, back, rfl, hd⟩
    · have hnone : ∀ b ∈ as, ¬P b := fun b hb hPb => hlater ⟨b, hb, hPb⟩
      obtain rfl : a = c := (List.mem_cons.mp ha).resolve_right fun ha => hnone a ha hP
      exact ⟨a, [], as, rfl, hP, hnone⟩

/-- Of a list that is gone through from its end, the last of a kind comes first. -/
theorem lastOf_of_reverse {p : α → Bool} (h : as.reverse.filter p = a :: rest) :
    LastOf (fun b => p b = true) as a := by
  obtain ⟨behind, before, hsplit, hbehind, hp, -⟩ := List.filter_eq_cons_iff.mp h
  refine ⟨before.reverse, behind.reverse, ?_, hp, fun b hb => hbehind b (List.mem_reverse.mp hb)⟩
  rw [← List.reverse_reverse as, hsplit]
  simp

/-! ## In turn -/

/-- Two elements of a list without repetitions stand in one order only. -/
theorem not_sublist_swap (hd : as.Nodup) (h : [a, b].Sublist as) : ¬[b, a].Sublist as := by
  induction as with
  | nil => cases h
  | cons c as ih =>
    obtain ⟨hc, hd⟩ := List.nodup_cons.mp hd
    intro h'
    cases h with
    | cons _ h =>
      cases h' with
      | cons _ h' => exact ih hd h h'
      | cons_cons _ h' => exact hc (h.subset (by simp))
    | cons_cons _ h =>
      cases h' with
      | cons _ h' => exact hc (h'.subset (by simp))
      | cons_cons _ h' => exact hc (h.subset (by simp))

theorem sublist_or_swap (ha : a ∈ as) (hb : b ∈ as) (hne : a ≠ b) :
    [a, b].Sublist as ∨ [b, a].Sublist as := by
  obtain ⟨front, back, rfl⟩ := List.append_of_mem ha
  rcases List.mem_append.mp hb with hb | hb
  · exact Or.inr ((List.singleton_sublist.mpr hb).append (by simp))
  · have hback : b ∈ back := (List.mem_cons.mp hb).resolve_left hne.symm
    exact Or.inl (((List.singleton_sublist.mpr hback).cons_cons a).trans
      (List.sublist_append_right front _))

/-- What is sorted keeps its order where nothing is better. -/
theorem mergeSort_inTurn {le : α → α → Bool} (trans : ∀ a b c, le a b → le b c → le a c)
    (total : ∀ a b, le a b || le b a) (hd : as.Nodup) :
    (as.mergeSort le).Pairwise fun a b => le a b ∧ (le b a → [a, b].Sublist as) := by
  have hsorted := List.pairwise_mergeSort trans total as
  have hnodup : (as.mergeSort le).Nodup := (List.mergeSort_perm as le).nodup_iff.mpr hd
  rw [List.pairwise_iff_forall_sublist] at hsorted ⊢
  intro a b hab
  refine ⟨hsorted hab, fun hba => ?_⟩
  have hmem : ∀ {c}, c ∈ [a, b] → c ∈ as := fun hc =>
    (List.mergeSort_perm as le).mem_iff.mp (hab.subset hc)
  have hne : a ≠ b := by
    rintro rfl
    exact not_sublist_swap hnodup hab hab
  refine (sublist_or_swap (hmem (by simp)) (hmem (by simp)) hne).resolve_right fun hswap => ?_
  exact not_sublist_swap hnodup hab (List.pair_sublist_mergeSort trans total hba hswap)

/-- What has its turn is the first of the best. -/
theorem firstBest_of_turn (hd : all.Nodup) (hsub : as.Sublist all) (hperm : (a :: rest).Perm as)
    (hturn : ∀ b ∈ rest, le a b ∧ (le b a → [a, b].Sublist all)) : FirstBest le as a := by
  have hrest : ∀ b ∈ as, b ≠ a → b ∈ rest := fun b hb hne =>
    (List.mem_cons.mp (hperm.mem_iff.mpr hb)).resolve_left hne
  have hnodup : as.Nodup := hd.sublist hsub
  obtain ⟨front, back, rfl⟩ := List.append_of_mem (hperm.mem_iff.mp List.mem_cons_self)
  refine ⟨front, back, rfl, fun b hb hba => ?_, fun b hb => ?_⟩
  · have hfirst : [b, a].Sublist all :=
      ((List.singleton_sublist.mpr hb).append (by simp)).trans hsub
    have hne : b ≠ a := by
      rintro rfl
      exact not_sublist_swap hd hfirst hfirst
    exact not_sublist_swap hd hfirst
      ((hturn b (hrest b (List.mem_append_left _ hb) hne)).2 hba)
  · have hlast : [a, b].Sublist all := (((List.singleton_sublist.mpr hb).cons_cons a).trans
      (List.sublist_append_right front _)).trans hsub
    have hne : b ≠ a := by
      rintro rfl
      exact not_sublist_swap hd hlast hlast
    exact (hturn b (hrest b (by simp [hb]) hne)).1

end NightlyBackup
