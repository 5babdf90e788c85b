import NightlyBackup.Proofs.Confining
import NightlyBackup.Proofs.Phases

/-!
The places of the others on the schedule. A dump that is put off takes another place on the
schedule or none; all the others stay in their order, with their plans. So a choice among the dumps
of the schedule is afterwards the same choice without this one.
-/

namespace NightlyBackup

open Night Planning Delaying

variable {n : Night} {s t u : Shrinking} {id i j slot : Nat} {ids l r : List Nat} {reason : String}
  {image : BeforeImage}

namespace Night

def others (n : Night) (id : Nat) : List Nat := n.scheduled.filter (· ≠ id)

structure OthersAre (id : Nat) (ids : List Nat) (n : Night) : Prop where
  sound : n.Sound
  others : n.others id = ids

theorem filter_ne_of_nodup (h : (l ++ id :: r).Nodup) :
    (l ++ id :: r).filter (· ≠ id) = l ++ r := by
  have hnot : id ∉ l ++ r := (List.nodup_cons.mp (List.nodup_middle.mp h)).1
  rw [List.filter_append, List.filter_cons_of_neg (by simp), ← List.filter_append]
  exact List.filter_eq_self.mpr fun j hj => decide_eq_true (ne_of_mem_of_not_mem hj hnot)

theorem filter_insertAhead (ahead : Nat → Bool) (id : Nat) (ids : List Nat) :
    (Queues.insertAhead ahead id ids).filter (· ≠ id) = ids.filter (· ≠ id) := by
  induction ids with
  | nil => simp [Queues.insertAhead]
  | cons m rest ih =>
    unfold Queues.insertAhead
    split
    · rw [List.filter_cons_of_neg (by simp)]
    · rw [List.filter_cons, List.filter_cons, ih]

namespace OthersAre

theorem setPlan (h : n.OthersAre id ids) (f : DiskPlan → DiskPlan) :
    (n.setPlan j f).OthersAre id ids := ⟨h.sound.setPlan f, h.others⟩

theorem withTotals (h : n.OthersAre id ids) (t : Totals) : (n.withTotals t).OthersAre id ids :=
  ⟨h.sound.withTotals t, h.others⟩

theorem leave (h : n.OthersAre id ids) (hp : n.place id = some .scheduled) :
    (n.withQueues (n.queues.leave .scheduled id)).OthersAre id ids := by
  refine ⟨h.sound.leave hp, ?_⟩
  have hm : (n.withQueues (n.queues.leave .scheduled id)).scheduled = n.scheduled.erase id :=
    h.sound.members_leave hp .scheduled
  rw [Night.others, hm, h.sound.nodup_scheduled.erase_eq_filter, List.filter_filter, ← h.others]
  refine List.filter_congr fun j _ => ?_
  by_cases e : j = id <;> simp [e]

theorem joinAhead {ahead : Nat → Nat → Bool} (h : n.OthersAre id ids) (hid : id < n.plans.length)
    (hp : n.place id = none) :
    (n.withQueues (n.queues.joinAhead .scheduled ahead id)).OthersAre id ids := by
  refine ⟨h.sound.joinAhead hid hp, ?_⟩
  have hm : (n.queues.joinAhead .scheduled ahead id).members .scheduled = _ :=
    (h.sound.valid.holds_joinAhead (h.sound.registered ▸ hid) hp).members_eq
  rw [Function.update_self] at hm
  rw [Night.others, scheduled, Queues.scheduled, queues_withQueues, hm, filter_insertAhead,
    ← h.others]
  rfl

end OthersAre

end Night

/-! ## Actions about one record -/

namespace Planning

theorem others_dumpMediaSize (h : n.OthersAre id ids) :
    Leads (dumpMediaSize j) n (fun _ k => k.OthersAre id ids) anyhow := by
  simp only [dumpMediaSize, Planning.setPlan, leads_bind, leads_modify, leads_get, leads_pure]
  exact h.setPlan _

theorem others_remove (h : n.OthersAre id ids) :
    Leads (remove .scheduled id) n (fun _ k => k.OthersAre id ids) anyhow := by
  refine leads_anyhow fun _ k hok => ?_
  obtain ⟨hp, rfl⟩ := ok_of_remove hok
  exact h.leave hp

theorem others_insertScheduled (h : n.OthersAre id ids) :
    Leads (insertScheduled id) n (fun _ k => k.OthersAre id ids) anyhow := by
  simp only [insertScheduled, leads_bind, leads_get]
  refine leads_anyhow fun _ k hok => ?_
  obtain ⟨hid, hp, rfl⟩ := ok_of_insertSorted h.sound hok
  refine leads_forM_keeps (I := OthersAre id ids) ?_ (h.joinAhead hid hp)
  intro j _ m hm
  simp only [getPlan, leads_bind, leads_get, leads_pure]
  split
  · simp only [Planning.setPlan, leads_bind, leads_modify]
    exact (hm.setPlan _).setPlan _
  · exact hm

theorem others_resortScheduled (h : n.OthersAre id ids) :
    Leads (resortScheduled id) n (fun _ k => k.OthersAre id ids) anyhow := by
  simp only [resortScheduled, leads_bind]
  apply (others_remove h).imp
  intro _ k hk
  exact others_insertScheduled hk

end Planning

namespace Delaying

theorem others_fallBack (h : n.OthersAre id ids) :
    Leads (fallBack id slot) n (fun _ k => k.OthersAre id ids) anyhow := by
  simp only [fallBack, Planning.setPlan, leads_bind, leads_modify]
  apply (others_dumpMediaSize (h.setPlan _)).imp
  intro _ m hm
  exact others_resortScheduled (hm.withTotals _)

theorem others_drop (h : n.OthersAre id ids) :
    Leads (drop id reason) n (fun _ k => k.OthersAre id ids) anyhow := by
  simp only [drop, Planning.setPlan, leads_bind, leads_modify]
  apply (others_remove h).imp
  intro _ k hk
  exact hk.setPlan _

theorem others_delay {delete : Bool} (hs : s.night.Sound) :
    Leads (delay id delete reason) s (fun _ t => t.night.others id = s.night.others id) anyhow := by
  have hkept : Leads (delay id delete reason) s
      (fun _ t => t.night.OthersAre id (s.night.others id)) anyhow :=
    keeps_delay (others_dumpMediaSize ⟨hs, rfl⟩) (fun _ hm => hm.withTotals _)
      (fun _ => others_fallBack) others_drop
  exact hkept.imp fun _ _ h => h.others

/-! ## Putting off -/

/-- The dump that `image` is of is put off: the others keep their plans and their order, this one
is not a full dump on the schedule any more, and the log tells of it. -/
structure Delayed (image : BeforeImage) (s t : Shrinking) : Prop where
  scheduled : s.night.place image.record = some .scheduled
  visited : Visited image.record s t
  others : t.night.others image.record = s.night.others image.record
  sound : t.night.Sound
  incremental : t.night.place image.record = some .scheduled →
    (t.night.plan image.record).isFull = false
  dropped : image.deleted = true → t.night.place image.record = none
  run : SameRun s.night t.night
  disks : s.night.SameDisks t.night
  logged : t.log = image :: s.log
  acted : ∃ reason, delay image.record image.deleted reason s = .ok () t
  putOff : ∃ reason, image = imageOf s.night image.record image.deleted reason ∧
    PutOff (s.night.plan image.record) image.deleted reason (t.night.plan image.record)
      (t.night.place image.record)

theorem leads_delay_delayed {delete : Bool} {fail : Fault → Shrinking → Prop}
    (hs : s.night.Orderly) (hp : s.night.place id = some .scheduled)
    (hf : delete = false → CanFallBack (s.night.plan id)) :
    Leads (delay id delete reason) s
      (fun _ t => Delayed (imageOf s.night id delete reason) s t) fail := by
  have hdelay : Leads (delay id delete reason) s _ never := leads_delay hs hp hf
  obtain ⟨_, t, hrun, hlog, horderly, _, _, tot, hb, -⟩ := hdelay.exists_ok
  have hdelayed : Leads (delay id delete reason) s _ never := leads_delayed hs hp hf
  obtain ⟨hvisited, hoff⟩ := hdelayed.ok hrun
  have hdisks := (sameDisks_withTotals s.night tot).trans hb.only.same
  have hincremental : t.night.place id = some .scheduled → (t.night.plan id).isFull = false := by
    intro hq
    unfold PutOff at hoff
    cases delete with
    | true => cases hoff.2.symm.trans hq
    | false =>
      obtain ⟨⟨d, hd, hfell⟩, -⟩ := hoff
      rw [hfell]
      exact isFull_fallenBack (hs.planned hp) hd
  have hdropped : delete = true → t.night.place id = none := by
    rintro rfl
    exact hoff.2
  exact leads_of_ok hrun ⟨hp, hvisited, (others_delay hs.sound).ok hrun, horderly.sound,
    hincremental, hdropped, ((within_delay s).ok hrun).sameRun, hdisks, hlog, ⟨reason, hrun⟩,
    reason, rfl, hoff⟩

namespace Delayed

variable (h : Delayed image s t) {P : DiskPlan → Bool}

include h

theorem settings : t.night.settings = s.night.settings := h.run.settings

theorem place (hj : j ≠ image.record) : t.night.place j = s.night.place j := h.visited.place hj

theorem plan (hj : j ≠ image.record) : t.night.plan j = s.night.plan j := h.visited.plan hj

/-- Two others stay in their order. -/
theorem sublist (hi : i ≠ image.record) (hj : j ≠ image.record)
    (hij : [i, j].Sublist s.night.scheduled) : [i, j].Sublist t.night.scheduled := by
  have hothers : [i, j].Sublist (s.night.others image.record) := by
    have hfilter := hij.filter (· ≠ image.record)
    rwa [List.filter_eq_self.mpr (by simp [hi, hj])] at hfilter
  rw [← h.others] at hothers
  exact hothers.trans List.filter_sublist

/-- A choice among the dumps of the schedule that does not fall on this one any more is the same as
before without it. -/
theorem filter (hP : t.night.place image.record = some .scheduled →
      P (t.night.plan image.record) = false) :
    t.night.scheduled.filter (fun j => P (t.night.plan j)) =
      (s.night.scheduled.filter fun j => P (s.night.plan j)).filter (· ≠ image.record) := by
  have hleft : t.night.scheduled.filter (fun j => P (t.night.plan j)) =
      (t.night.others image.record).filter fun j => P (t.night.plan j) := by
    rw [Night.others, List.filter_filter]
    refine List.filter_congr fun j hj => ?_
    by_cases e : j = image.record
    · rw [e, hP (e ▸ h.sound.mem_scheduled.mp hj)]
      rfl
    · simp [e]
  rw [hleft, h.others, Night.others, List.filter_filter, List.filter_filter]
  refine List.filter_congr fun j _ => ?_
  by_cases e : j = image.record
  · simp [e]
  · simp [e, h.plan e]

/-- Where the schedule is cut in front of the others, it can be cut again. -/
theorem cut (hcut : s.night.others image.record = l ++ r) : ∃ l' r',
    t.night.scheduled = l' ++ r' ∧ l'.getLast? = l.getLast? ∧
      l'.filter (· ≠ image.record) = l ∧ r'.filter (· ≠ image.record) = r := by
  rw [← h.others, Night.others] at hcut
  rcases List.eq_nil_or_concat l with rfl | ⟨front, last, rfl⟩
  · exact ⟨[], t.night.scheduled, rfl, rfl, rfl, hcut⟩
  · rw [List.concat_eq_append, List.append_assoc] at hcut
    obtain ⟨l', r', hsplit, rfl, hr⟩ := List.filter_eq_append_iff.mp hcut
    obtain ⟨skipped, r', rfl, hskipped, hlast, rfl⟩ := List.filter_eq_cons_iff.mp hr
    have hnone : skipped.filter (· ≠ image.record) = [] := List.filter_eq_nil_iff.mpr hskipped
    have hone : [last].filter (· ≠ image.record) = [last] := by simpa using hlast
    refine ⟨l' ++ skipped ++ [last], r', by simp [hsplit], by simp, ?_, rfl⟩
    rw [List.filter_append, List.filter_append, hnone, hone, List.append_nil,
      List.concat_eq_append]

end Delayed

/-! ## One dump after the other -/

/-- Dumps are put off one after the other, and sizes are looked at in between; `images` tell of the
dumps, in this order. -/
inductive Thinned : Shrinking → List BeforeImage → Shrinking → Prop
  | refl (s : Shrinking) : Thinned s [] s
  | looked {s t : Shrinking} {images : List BeforeImage} (id slot : Nat) :
    Thinned { s with night := s.night.setPlan id (·.fixMedia slot) } images t → Thinned s images t
  | delayed {s t u : Shrinking} {image : BeforeImage} {images : List BeforeImage} :
    Delayed image s t → Thinned t images u → Thinned s (image :: images) u

namespace Thinned

variable {images later : List BeforeImage} {P : DiskPlan → Bool}

theorem trans (h : Thinned s images t) (h' : Thinned t later u) :
    Thinned s (images ++ later) u := by
  induction h with
  | refl => exact h'
  | looked i slot _ ih => exact .looked i slot (ih h')
  | delayed hd _ ih => exact .delayed hd (ih h')

theorem changes (h : Thinned s images t) : Changes s t := by
  induction h with
  | refl => exact .refl
  | @looked s _ _ i slot _ ih =>
    have hvisited : Visited i s { s with night := s.night.setPlan i (·.fixMedia slot) } :=
      .looked slot
    exact hvisited.changes.trans ih
  | delayed hd _ ih => exact hd.visited.changes.trans ih

theorem log (h : Thinned s images t) : t.log = images.reverse ++ s.log := by
  induction h with
  | refl => rfl
  | looked _ _ _ ih => exact ih
  | delayed hd _ ih =>
    rw [ih, hd.logged, List.reverse_cons, List.append_assoc]
    rfl

theorem run (h : Thinned s images t) : SameRun s.night t.night := by
  induction h with
  | refl => exact .refl _
  | @looked s _ _ i slot _ ih =>
    have hlooked : SameRun s.night (s.night.setPlan i (·.fixMedia slot)) :=
      ⟨rfl, rfl, rfl, rfl, rfl, length_setPlan⟩
    exact hlooked.trans ih
  | delayed hd _ ih => exact hd.run.trans ih

theorem media (h : Thinned s images t) : t.night.media = s.night.media := h.run.media

theorem settings (h : Thinned s images t) : t.night.settings = s.night.settings := h.run.settings

theorem sound (h : Thinned s images t) (hs : s.night.Sound) : t.night.Sound := by
  induction h with
  | refl => exact hs
  | looked _ _ _ ih => exact ih (hs.setPlan _)
  | delayed hd _ ih => exact ih hd.sound

/-- Nothing is put on the schedule. -/
theorem scheduled (h : Thinned s images t) (hp : t.night.place id = some .scheduled) :
    s.night.place id = some .scheduled := by
  induction h with
  | refl => exact hp
  | looked _ _ _ ih => exact ih hp
  | delayed hd _ ih => exact hd.visited.scheduled hd.scheduled (ih hp)

/-- A record of which no dump is put off keeps its place, and of its plan at most sizes are held on
to. -/
theorem others (h : Thinned s images t) (hid : ∀ image ∈ images, image.record ≠ id) :
    t.night.place id = s.night.place id ∧ (s.night.plan id).Held (t.night.plan id) := by
  induction h with
  | refl => exact ⟨rfl, .refl⟩
  | @looked s _ _ i slot _ ih =>
    obtain ⟨hplace, hheld⟩ := ih hid
    refine ⟨hplace, Relation.ReflTransGen.trans ?_ hheld⟩
    exact plan_setPlan_cases (P := (s.night.plan id).Held) (DiskPlan.held_fixMedia _ slot) .refl
  | delayed hd _ ih =>
    obtain ⟨hne, hid⟩ := List.forall_mem_cons.mp hid
    obtain ⟨hplace, hheld⟩ := ih hid
    rw [hd.place hne.symm] at hplace
    rw [hd.plan hne.symm] at hheld
    exact ⟨hplace, hheld⟩

/-- What is not on the schedule is not put off. -/
theorem not_put_off (h : Thinned s images t) (hp : s.night.place id ≠ some .scheduled) :
    ∀ image ∈ images, image.record ≠ id := by
  induction h with
  | refl => simp
  | looked _ _ _ ih => exact ih hp
  | delayed hd _ ih =>
    have hne : id ≠ _ := fun e => hp (e ▸ hd.scheduled)
    exact List.forall_mem_cons.mpr ⟨hne.symm, ih (by rwa [hd.place hne])⟩

/-- A choice among the full dumps of the schedule is afterwards the same choice without those that
were put off. -/
theorem filter (h : Thinned s images t) (hfull : ∀ p, P p = true → p.isFull = true)
    (hlooked : ∀ p slot, P (DiskPlan.fixMedia p slot) = P p) :
    t.night.scheduled.filter (fun id => P (t.night.plan id)) =
      (s.night.scheduled.filter fun id => P (s.night.plan id)).filter
        fun id => id ∉ images.map (·.record) := by
  induction h with
  | refl => simp
  | @looked s _ _ i slot _ ih =>
    refine ih.trans (congrArg _ (List.filter_congr fun id _ => ?_))
    exact plan_setPlan_cases (P := fun p => P p = P (s.night.plan id)) (hlooked _ slot) rfl
  | @delayed s t _ image _ hd _ ih =>
    have hgone : t.night.place image.record = some .scheduled →
        P (t.night.plan image.record) = false := by
      intro hp
      by_contra hP
      cases (hd.incremental hp).symm.trans (hfull _ (eq_true_of_ne_false hP))
    rw [ih, hd.filter hgone, List.filter_filter]
    refine List.filter_congr fun id _ => ?_
    simp only [ne_eq, List.map_cons, List.mem_cons, not_or, Bool.decide_and, Bool.and_comm]

end Thinned

end Delaying

end NightlyBackup
