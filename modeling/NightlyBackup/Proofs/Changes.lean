import Mathlib.Logic.Relation
import NightlyBackup.Proofs.Silence

/-!
Changes of a schedule: one dump is put off, one change is undone, or the size of a level is
looked at. Every change keeps the schedule in order and the log true, and so does every run
of changes.
-/

namespace NightlyBackup

open Night Delaying

/-- One change of a schedule and its log. -/
inductive Change : Shrinking → Shrinking → Prop
  | delayed {s t : Shrinking} {id : Nat} {delete : Bool} {reason : String} :
    s.night.place id = some .scheduled → (delete = false → CanFallBack (s.night.plan id)) →
    delay id delete reason s = .ok () t → Change s t
  | undone {n k : Night} {later older : List BeforeImage} {image : BeforeImage} :
    undoIfFits image n = .ok true k → Change ⟨n, later ++ image :: older⟩ ⟨k, later ++ older⟩
  | looked (n : Night) (log : List BeforeImage) (id slot : Nat) :
    Change ⟨n, log⟩ ⟨n.setPlan id (·.fixMedia slot), log⟩
  | reckoned (n : Night) (log : List BeforeImage) (what : Option Overflow) :
    Change ⟨n, log⟩ ⟨n.reckon what, log⟩

def Changes : Shrinking → Shrinking → Prop := Relation.ReflTransGen Change

/-- The schedule of `n` comes from that of `a`, and the log says how: a record that is missing
was dropped for a reason, and what the images say of their records is true. -/
structure Logged (a n : Night) (log : List BeforeImage) : Prop where
  orderly : n.Orderly
  same : a.SameDisks n
  skipped : n.skipped = a.skipped
  media : n.media = a.media
  others : ∀ {id}, a.place id ≠ some .scheduled →
    n.place id = a.place id ∧ (n.plan id).fault = (a.plan id).fault
  each : ∀ {id}, a.place id = some .scheduled → n.place id = some .scheduled ∨
    (n.place id = none ∧ (n.plan id).fault.isSome ∧
      ∃ image ∈ log, image.record = id ∧ image.deleted = true)
  origin : ∀ image ∈ log, a.place image.record = some .scheduled
  faithful : ∀ image ∈ log, Faithful image (n.plan image.record) (n.place image.record)
  distinct : log.Pairwise fun i j => i.record = j.record → i.deleted ≠ j.deleted

namespace Logged

variable {a n k : Night} {log later older : List BeforeImage} {image : BeforeImage}
  {s t : Shrinking} {id slot : Nat} {p : DiskPlan} {q : Option QueueName}

theorem refl (ha : a.Orderly) : Logged a a [] :=
  ⟨ha, .refl a, rfl, rfl, fun _ => ⟨rfl, rfl⟩, Or.inl, by simp, by simp, .nil⟩

/-- A record on the schedule was on it from the beginning. -/
theorem scheduled (h : Logged a n log) (hp : n.place id = some .scheduled) :
    a.place id = some .scheduled := by
  by_cases e : a.place id = some .scheduled
  · exact e
  · exact (h.others e).1.symm.trans hp

theorem delayed {delete : Bool} {reason : String} {tot : Totals} (h : Logged a s.night s.log)
    (hp : s.night.place id = some .scheduled)
    (hf : delete = false → CanFallBack (s.night.plan id)) (horderly : t.night.Orderly)
    (hlog : t.log = imageOf s.night id delete reason :: s.log)
    (hb : Becomes id p q (s.night.withTotals tot) t.night)
    (hoff : PutOff (s.night.plan id) delete reason p q) : Logged a t.night t.log := by
  have ha := h.scheduled hp
  have hplace : ∀ {j}, j ≠ id → t.night.place j = s.night.place j := fun hj => hb.only.place hj
  have hplan : ∀ {j}, j ≠ id → t.night.plan j = s.night.plan j := fun hj => hb.only.plan hj
  have hrecord : (imageOf s.night id delete reason).record = id := rfl
  have hdeleted : (imageOf s.night id delete reason).deleted = delete := rfl
  refine ⟨horderly, h.same.trans ((sameDisks_withTotals s.night tot).trans hb.only.same),
    hb.alike.skipped.trans h.skipped, hb.alike.media.trans h.media, ?_, ?_, ?_, ?_, ?_⟩
  · intro j hj
    have hne : j ≠ id := fun e => hj (e ▸ ha)
    rw [hplace hne, hplan hne]
    exact h.others hj
  · intro j hj
    by_cases e : j = id
    · rw [e, hb.place, hb.plan, hlog]
      unfold PutOff at hoff
      cases delete with
      | true =>
        obtain ⟨rfl, rfl⟩ := hoff
        exact Or.inr ⟨rfl, rfl, _, List.mem_cons_self .., rfl, rfl⟩
      | false => exact Or.inl hoff.2
    · rw [hplace e, hplan e, hlog]
      refine (h.each hj).imp_right ?_
      rintro ⟨hp, hfault, i, hi, hr⟩
      exact ⟨hp, hfault, i, List.mem_cons_of_mem _ hi, hr⟩
  · rw [hlog]
    intro i hi
    rcases List.mem_cons.mp hi with rfl | hi
    · exact ha
    · exact h.origin i hi
  · rw [hlog]
    intro i hi
    rcases List.mem_cons.mp hi with rfl | hi
    · rw [hrecord, hb.plan, hb.place]
      exact faithful_imageOf (h.orderly.planned hp) hf hoff
    · by_cases e : i.record = id
      · have hi := h.faithful i hi
        rw [e, hp] at hi
        rw [e, hb.plan, hb.place]
        exact (hi.putOff hf hoff).2.2
      · rw [hplace e, hplan e]
        exact h.faithful i hi
  · rw [hlog]
    refine List.Pairwise.cons (fun i hi e => ?_) h.distinct
    have hi := h.faithful i hi
    rw [← e, hrecord, hp] at hi
    obtain ⟨hnot, hdel, -⟩ := hi.putOff hf hoff
    rw [hdeleted, hdel, hnot]
    simp

theorem looked (h : Logged a n log) : Logged a (n.setPlan id (·.fixMedia slot)) log := by
  have hplan : ∀ {P : DiskPlan → Prop} {j}, (∀ p, P p → P (p.fixMedia slot)) → P (n.plan j) →
      P ((n.setPlan id (·.fixMedia slot)).plan j) := by
    intro P j hkept hp
    exact plan_setPlan_cases (hkept _ hp) hp
  have honly : OnlyAt id n (n.setPlan id (·.fixMedia slot)) :=
    .setPlan fun p => Planning.fixMedia_keeps p slot
  refine ⟨h.orderly.looked id slot, h.same.trans honly.same, h.skipped, h.media,
    fun {j} hj => ?_, fun {j} hj => ?_, h.origin, fun i hi => ?_, h.distinct⟩
  · obtain ⟨hplace, hfault⟩ := h.others hj
    exact ⟨hplace, hplan (P := fun p => p.fault = (a.plan j).fault) (fun _ hp => hp) hfault⟩
  · refine (h.each hj).imp_right ?_
    rintro ⟨hp, hfault, himage⟩
    refine ⟨hp, ?_, himage⟩
    exact hplan (P := fun p => p.fault.isSome) (fun _ hp => hp) hfault
  · exact hplan (P := fun p => Faithful i p (n.place i.record)) (fun _ hp => hp.fixMedia)
      (h.faithful i hi)

theorem reckoned (h : Logged a n log) (what : Option Overflow) : Logged a (n.reckon what) log :=
  ⟨h.orderly.reckon what, h.same.trans (sameDisks_reckon n what), h.skipped, h.media, h.others,
    h.each, h.origin, h.faithful, h.distinct⟩

theorem undone {total : Nat} (h : Logged a n (later ++ image :: older))
    (htotal : undoneSize? n image = some total) (hk : Undone image n total k) :
    Logged a k (later ++ older) := by
  obtain ⟨horderly, -, tot, hb⟩ := hk
  have hmem : image ∈ later ++ image :: older := by simp
  have hsub : later ++ older ⊆ later ++ image :: older := by
    intro i hi
    rcases List.mem_append.mp hi with hi | hi
    · exact List.mem_append_left _ hi
    · exact List.mem_append_right _ (List.mem_cons_of_mem _ hi)
  have himage := h.faithful image hmem
  have hplace : ∀ {j}, j ≠ image.record → k.place j = n.place j := fun hj => hb.only.place hj
  have hplan : ∀ {j}, j ≠ image.record → k.plan j = n.plan j := fun hj => hb.only.plan hj
  have hapart : ∀ i ∈ later ++ older, i.record = image.record → i.deleted ≠ image.deleted := by
    obtain ⟨-, holder, hlater⟩ := List.pairwise_append.mp h.distinct
    intro i hi e
    rcases List.mem_append.mp hi with hi | hi
    · exact hlater i hi image (List.mem_cons_self ..) e
    · exact fun ed => (List.pairwise_cons.mp holder).1 i hi e.symm ed.symm
  refine ⟨horderly, h.same.trans ((sameDisks_withTotals n tot).trans hb.only.same),
    hb.alike.skipped.trans h.skipped, hb.alike.media.trans h.media, fun {j} hj => ?_,
    fun {j} hj => ?_, fun i hi => h.origin i (hsub hi), fun i hi => ?_,
    h.distinct.sublist (List.Sublist.append_left (List.sublist_cons_self ..) _)⟩
  · have hne : j ≠ image.record := fun e => hj (e ▸ h.origin image hmem)
    rw [hplace hne, hplan hne]
    exact h.others hj
  · by_cases e : j = image.record
    · exact Or.inl (e ▸ hb.place)
    · rw [hplace e, hplan e]
      refine (h.each hj).imp_right ?_
      rintro ⟨hp, hfault, i, hi, hr, hd⟩
      refine ⟨hp, hfault, i, ?_, hr, hd⟩
      have hne : i ≠ image := fun ei => e (hr.symm.trans (congrArg BeforeImage.record ei))
      simpa [hne] using hi
  · have hi' := h.faithful i (hsub hi)
    by_cases e : i.record = image.record
    · have hd := hapart i hi e
      rw [e] at hi' ⊢
      rw [hb.plan, hb.place]
      exact himage.beside htotal hd hi'
    · rw [hplace e, hplan e]
      exact hi'

/-- Every change keeps the log true. -/
theorem change (h : Logged a s.night s.log) (hc : Change s t) : Logged a t.night t.log := by
  cases hc with
  | delayed hp hf hact =>
    obtain ⟨hlog, horderly, p, q, tot, hb, hoff⟩ :=
      (leads_delay h.orderly hp hf).reached hact
    exact h.delayed hp hf horderly hlog hb hoff
  | @undone n k later older image hact =>
    have himage := h.faithful image (by simp)
    cases (leads_undoIfFits h.orderly himage).reached hact with
    | undone htotal _ hk => exact h.undone htotal hk
  | looked n log id slot => exact h.looked
  | reckoned n log what => exact h.reckoned what

/-- A run of changes keeps the log true. -/
theorem changes (h : Logged a s.night s.log) (hc : Changes s t) : Logged a t.night t.log := by
  induction hc with
  | refl => exact h
  | tail _ hc ih => exact ih.change hc

end Logged

/-! ## Changes of what is scheduled -/

/-- A run of changes of which the operator hears nothing yet, and which leaves alone what `a`
has not scheduled. -/
structure Revised (a : Night) (s t : Shrinking) : Prop where
  changes : Changes s t
  events : t.night.events = s.night.events
  plan : ∀ {id}, a.place id ≠ some .scheduled → t.night.plan id = s.night.plan id

namespace Revised

variable {a : Night} {s t u : Shrinking}

theorem refl : Revised a s s := ⟨.refl, rfl, fun _ => rfl⟩

theorem reckoned {n : Night} {log : List BeforeImage} (what : Option Overflow) :
    Revised a ⟨n, log⟩ ⟨n.reckon what, log⟩ :=
  ⟨.single (.reckoned n log what), rfl, fun _ => rfl⟩

theorem trans (h : Revised a s t) (h' : Revised a t u) : Revised a s u :=
  ⟨h.changes.trans h'.changes, h'.events.trans h.events,
    fun hp => (h'.plan hp).trans (h.plan hp)⟩

end Revised

end NightlyBackup
