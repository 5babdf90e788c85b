import NightlyBackup.Proofs.Changes

/-!
Putting off dumps until the schedule fits. Every pass is a run of changes that no fault ends.
After the first pass no dump is too big for one run; after the last one the schedule fits, or
nothing but full dumps is left on it.
-/

namespace NightlyBackup

open Night

/-- The dump of a record is not too big for one run. -/
def Night.Bounded (n : Night) (id : Nat) : Prop :=
  (n.plan id).dumpMediaSize ≤ n.media.ceiling (n.plan id).disk

namespace Delaying

variable {a : Night} {s t u : Shrinking} {id j : Nat} {ids : List Nat} {p : DiskPlan}
  {fail : Fault → Shrinking → Prop}

/-! ## One record -/

/-- A run of changes from `s` to `t` that are about one record. -/
structure Visited (id : Nat) (s t : Shrinking) : Prop where
  changes : Changes s t
  events : t.night.events = s.night.events
  place : ∀ {j}, j ≠ id → t.night.place j = s.night.place j
  plan : ∀ {j}, j ≠ id → t.night.plan j = s.night.plan j
  media : t.night.media = s.night.media

theorem Visited.refl : Visited id s s :=
  ⟨.refl, rfl, fun _ => rfl, fun _ => rfl, rfl⟩

theorem Visited.trans (h : Visited id s t) (h' : Visited id t u) : Visited id s u :=
  ⟨h.changes.trans h'.changes, h'.events.trans h.events, fun hj => (h'.place hj).trans (h.place hj),
    fun hj => (h'.plan hj).trans (h.plan hj), h'.media.trans h.media⟩

theorem Visited.looked (slot : Nat) :
    Visited id s { s with night := s.night.setPlan id (·.fixMedia slot) } :=
  ⟨.single (.looked s.night s.log id slot), rfl, fun _ => rfl, plan_setPlan_of_ne, rfl⟩

/-- A visit to a record that `a` has scheduled. -/
theorem Visited.revised (h : Visited id s t) (hp : a.place id = some .scheduled) :
    Revised a s t :=
  ⟨h.changes, h.events, fun hj => h.plan fun e => hj (e ▸ hp)⟩

theorem leads_delayed {delete : Bool} {reason : String} (hs : s.night.Orderly)
    (hp : s.night.place id = some .scheduled)
    (hf : delete = false → CanFallBack (s.night.plan id)) :
    Leads (delay id delete reason) s (fun _ t => Visited id s t ∧
      PutOff (s.night.plan id) delete reason (t.night.plan id) (t.night.place id)) fail := by
  have hdelay : Leads (delay id delete reason) s _ never := leads_delay hs hp hf
  refine (hdelay.run.and events_delay).mono ?_ fun _ _ h => h.1.elim
  rintro _ t ⟨⟨hrun, -, -, p, q, tot, hb, hoff⟩, hevents⟩
  refine ⟨⟨.single (.delayed hp hf hrun), hevents, fun hj => hb.only.place hj,
    fun hj => hb.only.plan hj, hb.alike.media⟩, ?_⟩
  rwa [hb.plan, hb.place]

theorem leads_dropped {reason : String} (hs : s.night.Orderly)
    (hp : s.night.place id = some .scheduled) :
    Leads (delay id true reason) s (fun _ t => Visited id s t ∧ t.night.place id = none) fail :=
  Leads.imp (leads_delayed hs hp (by simp)) fun _ _ h => ⟨h.1, h.2.2⟩

theorem canFallBack_of_none (hfull : p.isFull = true) (h : cannotFallBack? p = none) :
    CanFallBack p := by
  refine ⟨hfull, ?_⟩
  unfold cannotFallBack? at h
  cases hd : p.degraded with
  | some _ => rfl
  | none =>
    rw [hd] at h
    split at h
    · cases h
    · split at h <;> cases h

/-- A full dump that is put off falls back if it can. -/
theorem leads_delayFull (softly : String) (hs : s.night.Orderly)
    (hp : s.night.place id = some .scheduled) (hfull : (s.night.plan id).isFull = true) :
    Leads (delayFull softly id) s (fun _ t => Visited id s t) fail := by
  simp only [delayFull, leads_bind, leads_getNight, leads_lift,
    leads_iff_of_ok (Planning.dumpMediaSize_ok (hs.planned hp))]
  split
  · exact Leads.imp (leads_dropped hs hp) fun _ _ h => h.1
  · rename_i h
    exact Leads.imp (leads_delayed hs hp fun _ => canFallBack_of_none hfull h) fun _ _ h => h.1

theorem leads_dropIncremental (hs : s.night.Orderly) (hp : s.night.place id = some .scheduled) :
    Leads (dropIncremental id) s (fun _ t => Visited id s t ∧ t.night.place id = none) fail := by
  simp only [dropIncremental, leads_bind, leads_lift,
    leads_iff_of_ok (Planning.dumpMediaSize_ok (hs.planned hp))]
  exact leads_dropped hs hp

/-! ## Oversize dumps -/

/-- An oversize dump that is not dropped has a fallback that fits on one volume. -/
theorem judgeOversize_soft {n : Night} (h : (judgeOversize n p).1 = false) :
    p.isFull = true ∧ cannotFallBack? p = none ∧
      (p.degraded.bind p.mediaSize?).getD 0 ≤ n.media.volume := by
  unfold judgeOversize at h
  split at h
  · rename_i hfull
    split at h
    · cases h
    · rename_i hnone
      split at h
      · cases h
      · rename_i hsize
        exact ⟨hfull, hnone, Nat.le_of_not_lt hsize⟩
  · cases h

/-- A dump that is too big for one run does not stay on the schedule. -/
theorem leads_delayIfOversize (hs : s.night.Orderly) (hp : s.night.place id = some .scheduled) :
    Leads (delayIfOversize id) s (fun _ t => Visited id s t ∧
      ((∀ d, s.night.media.volume ≤ s.night.media.ceiling d) →
        t.night.place id = some .scheduled → t.night.Bounded id)) fail := by
  have hplanned := hs.planned hp
  simp only [delayIfOversize, leads_bind, leads_getNight, leads_lift,
    leads_iff_of_ok (Planning.dumpMediaSize_ok hplanned)]
  split
  · cases hjudge : (judgeOversize s.night (s.night.plan id)).1 with
    | true =>
      have hgone : ∀ {s' t : Shrinking}, Visited id s s' →
          Visited id s' t ∧ t.night.place id = none → Visited id s t ∧
            ((∀ d, s.night.media.volume ≤ s.night.media.ceiling d) →
              t.night.place id = some .scheduled → t.night.Bounded id) :=
        fun h ht => ⟨h.trans ht.1, fun _ hq => by cases ht.2.symm.trans hq⟩
      split
      · rename_i slot _ _ _
        simp only [leads_bind, leads_lift, Planning.setPlan, leads_modify]
        exact Leads.imp (leads_dropped (hs.looked id slot) hp) fun _ _ => hgone (.looked slot)
      · exact Leads.imp (leads_dropped hs hp) fun _ _ => hgone .refl
    | false =>
      obtain ⟨hfull, hnone, hsize⟩ := judgeOversize_soft hjudge
      have hfall := canFallBack_of_none hfull hnone
      obtain ⟨slot, hd⟩ := Option.isSome_iff_exists.mp hfall.2
      rw [hd] at hsize
      rw [hfull, hnone, hd]
      simp only [leads_bind, leads_lift, Planning.setPlan, leads_modify]
      have hplan : (s.night.setPlan id (·.fixMedia slot)).plan id =
          (s.night.plan id).fixMedia slot := plan_setPlan_self (hs.sound.lt_of_place hp)
      have hstill : CanFallBack ((s.night.setPlan id (·.fixMedia slot)).plan id) := by
        rw [hplan]
        exact ⟨DiskPlan.isFull_fixMedia.trans hfall.1, hfall.2⟩
      refine Leads.imp (leads_delayed (hs.looked id slot) hp fun _ => hstill) ?_
      rintro _ t ⟨ht, ⟨d, hdeg, hq⟩, -⟩
      refine ⟨(Visited.looked slot).trans ht, fun hceiling _ => ?_⟩
      have hfell : t.night.plan id = fallenBack ((s.night.plan id).fixMedia slot) slot := by
        rw [hplan] at hdeg hq
        cases hd.symm.trans hdeg
        exact hq
      show (t.night.plan id).dumpMediaSize ≤ t.night.media.ceiling (t.night.plan id).disk
      rw [hfell, ht.media, dumpMediaSize_fallenBack, DiskPlan.mediaSize?_fixMedia]
      exact Nat.le_trans hsize (hceiling _)
  · rename_i hsize
    exact ⟨.refl, fun _ _ => Nat.le_of_not_lt hsize⟩

/-! ## Passes -/

/-- What a visit keeps of the records that it is not about. -/
theorem Visited.keeps {P : DiskPlan → Option QueueName → Prop} (h : Visited id s t) (hj : j ≠ id)
    (hp : P (s.night.plan j) (s.night.place j)) : P (t.night.plan j) (t.night.place j) := by
  rwa [h.plan hj, h.place hj]

/-- No visit puts a record on the schedule. -/
theorem Visited.scheduled (h : Visited id s t) (hp : s.night.place id = some .scheduled)
    (hj : t.night.place j = some .scheduled) : s.night.place j = some .scheduled := by
  by_cases e : j = id
  · rwa [e]
  · rwa [← h.place e]

/-- After the first pass no dump is too big for one run. -/
theorem leads_delayOversize (hs : Logged a s.night s.log) :
    Leads (s.night.scheduled.forM delayIfOversize) s (fun _ t => Revised a s t ∧
      ((∀ d, s.night.media.volume ≤ s.night.media.ceiling d) →
        ∀ {id}, t.night.place id = some .scheduled → t.night.Bounded id)) fail := by
  have hsound := hs.orderly.sound
  refine (leads_forM_each
    (I := fun t => Revised a s t ∧ t.night.media = s.night.media ∧
      ∀ {j}, t.night.place j = some .scheduled → s.night.place j = some .scheduled)
    (P := fun id t => t.night.place id = some .scheduled)
    (Q := fun id t => (∀ d, s.night.media.volume ≤ s.night.media.ceiling d) →
      t.night.place id = some .scheduled → t.night.Bounded id)
    hsound.nodup_scheduled ?_ ⟨.refl, rfl, fun h => h⟩
    fun id hid => hsound.mem_scheduled.mp hid).imp ?_
  · rintro id - t ⟨hc, hmedia, hstill⟩ hp
    apply (leads_delayIfOversize (hs.changes hc.changes).orderly hp).imp
    rintro _ u ⟨hu, hbounded⟩
    rw [hmedia] at hbounded
    refine ⟨⟨hc.trans (hu.revised ((hs.changes hc.changes).scheduled hp)), hu.media.trans hmedia,
      fun hj => hstill (hu.scheduled hp hj)⟩,
      hbounded, fun j _ hj => ⟨fun h => (hu.place hj).trans h, fun hq hv hpj => ?_⟩⟩
    rw [Night.Bounded, hu.media, hu.plan hj]
    exact hq hv ((hu.place hj).symm.trans hpj)
  · rintro _ t ⟨⟨hc, -, hstill⟩, hall⟩
    exact ⟨hc, fun hv _ hp => hall _ (hsound.mem_scheduled.mpr (hstill hp)) hv hp⟩

/-- A pass over different records that stops as soon as the schedule fits: it makes it fit,
or it visits all of them. -/
theorem leads_whileExceeding {act : Nat → Delaying Unit} {I : Shrinking → Prop}
    {P Q : Nat → Shrinking → Prop} (hd : ids.Nodup)
    (step : ∀ id ∈ ids, ∀ s, I s → P id s → Leads (act id) s (fun _ t => I t ∧ Q id t ∧
      ∀ j ∈ ids, j ≠ id → (P j s → P j t) ∧ (Q j s → Q j t)) fail)
    (hs : I s) (hp : ∀ id ∈ ids, P id s) :
    Leads (whileExceeding act ids) s (fun _ t => I t ∧
      (t.night.totals.size ≤ t.night.media.capacity ∨ ∀ id ∈ ids, Q id t)) fail := by
  induction ids generalizing I s with
  | nil => exact ⟨hs, Or.inr (by simp)⟩
  | cons id ids ih =>
    obtain ⟨hid, hd⟩ := List.nodup_cons.mp hd
    have hne : ∀ j ∈ ids, j ≠ id := fun j hj e => hid (e ▸ hj)
    simp only [whileExceeding, exceeds, leads_bind, leads_getNight, leads_pure]
    split
    · rw [leads_bind]
      apply (step id (List.mem_cons_self ..) s hs (hp id (List.mem_cons_self ..))).imp
      rintro _ t ⟨ht, hafter, hkeep⟩
      refine (ih (I := fun t => I t ∧ Q id t) hd ?_ ⟨ht, hafter⟩ ?_).imp ?_
      · rintro j hj u ⟨hu, ha⟩ hpj
        apply (step j (List.mem_cons_of_mem _ hj) u hu hpj).imp
        rintro _ v ⟨hv, hq, hk⟩
        exact ⟨⟨hv, (hk id (List.mem_cons_self ..) (hne j hj).symm).2 ha⟩, hq,
          fun k hm => hk k (List.mem_cons_of_mem _ hm)⟩
      · intro j hj
        exact (hkeep j (List.mem_cons_of_mem _ hj) (hne j hj)).1 (hp j (List.mem_cons_of_mem _ hj))
      · rintro _ u ⟨⟨hu, ha⟩, hall⟩
        refine ⟨hu, hall.imp_right fun hall j hj => ?_⟩
        rcases List.mem_cons.mp hj with rfl | hj
        · exact ha
        · exact hall j hj
    · rename_i hfits
      refine ⟨hs, Or.inl ?_⟩
      simpa using hfits

/-- Full dumps yield, each at most once. -/
theorem leads_delayFulls (hs : Logged a s.night s.log) :
    Leads (whileExceeding (delayFull "full dump delayed, doing incremental")
      (yieldingFulls s.night)) s (fun _ t => Revised a s t) fail := by
  have hperm := List.mergeSort_perm (s.night.scheduled.filter fun id =>
    (s.night.plan id).isFull && !(s.night.plan id).directives.forceFull)
      fun a b => yieldsBefore (s.night.plan a) (s.night.plan b)
  refine (leads_whileExceeding (I := fun t => Revised a s t)
    (P := fun id t => t.night.place id = some .scheduled ∧ (t.night.plan id).isFull = true)
    (Q := fun _ _ => True)
    (hperm.nodup_iff.mpr (hs.orderly.sound.nodup_scheduled.filter _)) ?_ .refl ?_).imp
      fun _ t h => h.1
  · rintro id - t hc ⟨hp, hfull⟩
    refine (leads_delayFull _ (hs.changes hc.changes).orderly hp hfull).imp fun _ u hu => ?_
    have hrevised := hu.revised ((hs.changes hc.changes).scheduled hp)
    refine ⟨hc.trans hrevised, trivial, fun j _ hj => ⟨fun h => ?_, fun h => h⟩⟩
    exact hu.keeps (P := fun p q => q = some .scheduled ∧ p.isFull = true) hj h
  · intro id hid
    obtain ⟨hm, hfull⟩ := List.mem_filter.mp (hperm.mem_iff.mp hid)
    exact ⟨hs.orderly.sound.mem_scheduled.mp hm, (Bool.and_eq_true_iff.mp hfull).1⟩

/-- Forced full dumps are put off from the tail on. The place that is come to next does not
move, as it is another record's. -/
theorem leads_delayForcedFrom (preserved : Option Nat) (places : Nat)
    (hs : Logged a s.night s.log) {cur : Option Nat}
    (hcur : ∀ id, cur = some id → s.night.place id = some .scheduled) :
    Leads (delayForcedFrom preserved places cur) s (fun _ t => Revised a s t) fail := by
  induction places generalizing s cur with
  | zero => exact .refl
  | succ places ih =>
    cases cur with
    | none => exact .refl
    | some id =>
      have hp := hcur id rfl
      have hprev : ∀ j, s.night.queues.prev? id = some j →
          s.night.place j = some .scheduled ∧ j ≠ id :=
        fun j hj => hs.orderly.sound.valid.prev?_spec hp hj
      simp only [delayForcedFrom, exceeds, leads_bind, leads_getNight, leads_pure]
      split
      · simp only [leads_bind, leads_getNight]
        split
        · rename_i hcond
          simp only [Bool.and_eq_true] at hcond
          rw [leads_bind]
          refine (leads_delayFull _ hs.orderly hp hcond.1.1).imp fun _ t ht => ?_
          have hrevised := ht.revised (hs.scheduled hp)
          refine (ih (hs.changes ht.changes) fun j hj => ?_).imp fun _ u hu => hrevised.trans hu
          obtain ⟨hj, hne⟩ := hprev j hj
          rwa [ht.place hne]
        · exact ih hs fun j hj => (hprev j hj).1
      · exact .refl

theorem leads_delayForcedFulls (hs : Logged a s.night s.log) :
    Leads delayForcedFulls s (fun _ t => Revised a s t) fail := by
  simp only [delayForcedFulls, exceeds, leads_bind, leads_getNight, leads_pure]
  split
  · simp only [leads_bind, leads_getNight]
    have hsound := hs.orderly.sound
    refine leads_delayForcedFrom _ _ hs fun id hid => hsound.mem_scheduled.mp ?_
    rw [Queues.Holds.tail?_eq hsound.valid] at hid
    exact List.mem_of_getLast? hid
  · exact .refl

/-- After the last pass the schedule fits, or nothing but full dumps is left on it. -/
theorem leads_dropIncrementals (hs : Logged a s.night s.log) :
    Leads (whileExceeding dropIncremental (incrementals s.night)) s (fun _ t => Revised a s t ∧
      (t.night.totals.size ≤ t.night.media.capacity ∨
        ∀ {id}, t.night.place id = some .scheduled → (t.night.plan id).isFull = true)) fail := by
  have hsound := hs.orderly.sound
  have hmem : ∀ {id}, id ∈ incrementals s.night ↔
      s.night.place id = some .scheduled ∧ (s.night.plan id).isFull = false := by
    intro id
    simp [incrementals, hsound.mem_scheduled]
  have hnodup : (incrementals s.night).Nodup :=
    ((List.reverse_perm _).nodup_iff.mpr hsound.nodup_scheduled).filter _
  refine (leads_whileExceeding (I := fun t => Revised a s t ∧ ∀ {j},
      t.night.place j = some .scheduled → s.night.place j = some .scheduled ∧
        t.night.plan j = s.night.plan j)
    (P := fun id t => t.night.place id = some .scheduled)
    (Q := fun id t => t.night.place id = none)
    hnodup ?_ ⟨.refl, fun h => ⟨h, rfl⟩⟩ fun id hid => (hmem.mp hid).1).imp ?_
  · rintro id - t ⟨hc, hstill⟩ hp
    apply (leads_dropIncremental (hs.changes hc.changes).orderly hp).imp
    rintro _ u ⟨hu, hnone⟩
    have hrevised := hu.revised ((hs.changes hc.changes).scheduled hp)
    refine ⟨⟨hc.trans hrevised, fun {j} hj => ?_⟩, hnone, fun j _ hj =>
      ⟨fun h => (hu.place hj).trans h, fun h => (hu.place hj).trans h⟩⟩
    have hne : j ≠ id := by
      rintro rfl
      cases hnone.symm.trans hj
    rw [hu.plan hne]
    exact hstill ((hu.place hne).symm.trans hj)
  · rintro _ t ⟨⟨hc, hstill⟩, hall⟩
    refine ⟨hc, hall.imp_right fun hall {id} hp => ?_⟩
    obtain ⟨hps, hplan⟩ := hstill hp
    rw [hplan]
    cases hfull : (s.night.plan id).isFull with
    | true => rfl
    | false => cases (hall id (hmem.mpr ⟨hps, hfull⟩)).symm.trans hp

/-- What all passes together reach from `s`: at some moment no dump was too big for one run,
and at the end the schedule fits or only full dumps are left on it. -/
structure RoomMade (a : Night) (s u t : Shrinking) : Prop where
  begun : Revised a s u
  bounded : (∀ d, s.night.media.volume ≤ s.night.media.ceiling d) →
    ∀ {id}, u.night.place id = some .scheduled → u.night.Bounded id
  ended : Revised a u t
  room : t.night.totals.size ≤ t.night.media.capacity ∨
    ∀ {id}, t.night.place id = some .scheduled → (t.night.plan id).isFull = true

/-- **Making room.** All passes together are a run of changes that no fault ends. -/
theorem leads_delayDumps (hs : Logged a s.night s.log) :
    Leads delayDumps s (fun _ t => ∃ u, RoomMade a s u t) fail := by
  simp only [delayDumps, leads_bind, leads_getNight]
  apply (leads_delayOversize hs).imp
  rintro _ u ⟨hu, hbounded⟩
  have hlast : ∀ v, Revised a u v → Leads (whileExceeding dropIncremental (incrementals v.night)) v
      (fun _ t => ∃ u, RoomMade a s u t) fail := by
    intro v hv
    apply (leads_dropIncrementals (hs.changes (hu.trans hv).changes)).imp
    rintro _ t ⟨ht, hroom⟩
    exact ⟨u, hu, hbounded, hv.trans ht, hroom⟩
  refine (leads_delayFulls (hs.changes hu.changes)).imp fun _ v hv => ?_
  split
  · rw [leads_bind]
    refine (leads_delayForcedFulls (hs.changes (hu.trans hv).changes)).imp fun _ w hw => ?_
    exact hlast w (hv.trans hw)
  · exact hlast v hv

/-! ## Schedules that fit -/

theorem leads_whileExceeding_fits {act : Nat → Delaying Unit}
    (hsize : s.night.totals.size ≤ s.night.media.capacity) :
    Leads (whileExceeding act ids) s (fun _ t => t = s) fail := by
  cases ids with
  | nil => rfl
  | cons id ids =>
    simp only [whileExceeding, exceeds, leads_bind, leads_getNight, leads_pure,
      decide_eq_false (Nat.not_lt.mpr hsize)]
    rfl

theorem leads_delayForcedFulls_fits (hsize : s.night.totals.size ≤ s.night.media.capacity) :
    Leads delayForcedFulls s (fun _ t => t = s) fail := by
  simp only [delayForcedFulls, exceeds, leads_bind, leads_getNight, leads_pure,
    decide_eq_false (Nat.not_lt.mpr hsize)]
  rfl

/-- No dump of a schedule that fits is put off, if none is too big for one run. -/
theorem leads_delayDumps_fits (hs : s.night.Orderly)
    (hsize : s.night.totals.size ≤ s.night.media.capacity)
    (hbounded : ∀ id, s.night.place id = some .scheduled → s.night.Bounded id) :
    Leads delayDumps s (fun _ t => t = s) fail := by
  simp only [delayDumps, leads_bind, leads_getNight]
  refine (leads_forM_keeps (I := fun t => t = s) ?_ rfl).imp ?_
  · rintro id hid _ rfl
    have hp := hs.sound.mem_scheduled.mp hid
    simp only [delayIfOversize, leads_bind, leads_getNight, leads_lift,
      leads_iff_of_ok (Planning.dumpMediaSize_ok (hs.planned hp))]
    rw [if_neg (Nat.not_lt.mpr (hbounded id hp))]
    rfl
  · rintro _ _ rfl
    apply (leads_whileExceeding_fits hsize).imp
    rintro _ _ rfl
    split
    · rw [leads_bind]
      apply (leads_delayForcedFulls_fits hsize).imp
      rintro _ _ rfl
      exact leads_whileExceeding_fits hsize
    · exact leads_whileExceeding_fits hsize

end Delaying

end NightlyBackup
