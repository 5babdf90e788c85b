import NightlyBackup.Proofs.Reinstating

/-!
Fitting the schedule. The changes that stand are reported, and a dump that they dropped fails;
so every disk stays accounted for. A schedule that fits holds no dump that is too big for one
run, and fitting it once more changes nothing.
-/

namespace NightlyBackup

open Night Delaying

variable {a n k f : Night} {s : Shrinking} {log kept : List BeforeImage} {image : BeforeImage}
  {id : Nat} {q : Option QueueName} {fail : Fault → Night → Prop}

/-! ## Reports -/

/-- What `f` has become of `n` while changes of `log` were reported: records that had lost
their place to one of them have failed. -/
structure Reported (log : List BeforeImage) (n f : Night) : Prop where
  sound : f.Sound
  same : n.SameDisks f
  plan : ∀ id, f.plan id = n.plan id
  totals : f.totals = n.totals
  media : f.media = n.media
  skipped : f.skipped = n.skipped
  place : ∀ id, f.place id = n.place id ∨
    (n.place id = none ∧ f.place id = some .failed ∧ ∃ image ∈ log, image.record = id)

namespace Reported

theorem refl (hs : n.Sound) : Reported log n n :=
  ⟨hs, .refl n, fun _ => rfl, rfl, rfl, rfl, fun _ => Or.inl rfl⟩

theorem becomes (h : Reported log n k) (hb : Becomes id (k.plan id) q k f)
    (ht : f.totals = k.totals) (hq : q = k.place id ∨
      (k.place id = none ∧ q = some .failed ∧ ∃ image ∈ log, image.record = id)) :
    Reported log n f := by
  refine ⟨hb.sound, h.same.trans hb.only.same, fun j => ?_, ht.trans h.totals,
    hb.alike.media.trans h.media, hb.alike.skipped.trans h.skipped, fun j => ?_⟩
  · exact hb.each (P := fun j p _ => p = n.plan j) (h.plan id) (fun j _ => h.plan j) j
  · refine hb.each (P := fun j _ q => q = n.place j ∨ (n.place j = none ∧ q = some .failed ∧
      ∃ image ∈ log, image.record = j)) ?_ (fun j _ => h.place j) j
    rcases hq with rfl | ⟨hnone, hfailed, hlog⟩
    · exact h.place id
    · refine Or.inr ⟨?_, hfailed, hlog⟩
      rcases h.place id with e | ⟨e, -⟩
      · exact e.symm.trans hnone
      · exact e

theorem scheduled_iff (h : Reported log n f) :
    f.place id = some .scheduled ↔ n.place id = some .scheduled := by
  rcases h.place id with e | ⟨e, e', -⟩
  · rw [e]
  · rw [e, e']
    exact ⟨by simp, by simp⟩

/-- Reports keep a schedule in order. -/
theorem orderly (h : Reported log n f) (hn : n.Orderly) : f.Orderly := by
  have hsum : ∀ g, sumOver g f = sumOver g n := fun g =>
    sumOver_congr hn.sound h.sound (fun _ => h.scheduled_iff) fun id _ => congrArg g (h.plan id)
  obtain ⟨hsize, hfull⟩ := exact_iff.mp hn.exact
  refine ⟨h.sound, fun {j} hj => ?_, exact_iff.mpr ⟨?_, ?_⟩⟩
  · rw [h.plan]
    exact hn.planned (h.scheduled_iff.mp hj)
  · rw [h.totals, h.media, hsum]
    exact hsize
  · rw [h.totals, hsum]
    exact hfull

end Reported

namespace Delaying

theorem leads_settle (h : Reported log n k) (hmem : image ∈ log)
    (hlt : image.record < k.plans.length) :
    Leads (settle image) k (fun _ f => Reported log n f ∧ f.place image.record ≠ none ∧
      ∀ j, k.place j ≠ none → f.place j ≠ none) fail := by
  have hb := Becomes.refl h.sound hlt
  simp only [settle, Planning.say, leads_bind, leads_get, leads_modify]
  have hl := hb.say (.delayed (k.hostName image.record) (k.diskName image.record) image.level
    image.deleted image.message)
  split
  · rename_i hnone
    have hnone : k.place image.record = none := hnone
    rw [hnone] at hl
    have hf : Becomes _ _ (some .failed) _ _ := hl.join
    refine leads_of_ok (Planning.enqueue_ok hl.sound hl.lt hl.place) ?_
    refine ⟨h.becomes hf rfl (Or.inr ⟨hnone, rfl, image, hmem, rfl⟩), ?_, fun j hj => ?_⟩
    · rw [hf.place]
      simp
    · have hne : j ≠ image.record := by
        rintro rfl
        exact hj hnone
      rwa [hf.only.place hne]
  · rename_i hsome
    exact ⟨h.becomes hl rfl (Or.inl rfl), hsome, fun _ hj => hj⟩

/-- All changes that stand are reported. -/
theorem leads_settleLog (h : Logged a n log) (hkept : kept.Perm log) :
    Leads (kept.forM settle) n (fun _ f => Reported log n f ∧
      ∀ image ∈ log, f.place image.record ≠ none) fail := by
  have hnodup : kept.Nodup := by
    refine hkept.nodup_iff.mpr (h.distinct.imp ?_)
    rintro i j hij rfl
    exact hij rfl rfl
  refine (leads_forM_each (I := fun f => Reported log n f) (P := fun _ _ => True)
    (Q := fun image f => f.place image.record ≠ none) hnodup ?_ (.refl h.orderly.sound)
    fun _ _ => trivial).imp fun _ f hf =>
      ⟨hf.1, fun image hi => hf.2 image (hkept.mem_iff.mpr hi)⟩
  intro image hi f hf _
  have hmem := hkept.mem_iff.mp hi
  have hlt : image.record < f.plans.length := by
    rw [hf.same.length]
    exact (h.faithful image hmem).lt
  apply (leads_settle hf hmem hlt).imp
  rintro _ l ⟨hl, hset, hstay⟩
  exact ⟨hl, hset, fun j _ _ => ⟨fun _ => trivial, hstay j.record⟩⟩

end Delaying

/-! ## The whole of fitting -/

/-- Fitting turns the schedule of `a` into that of `f`: a run of changes leads to `s`, and the
changes that stand in its log are reported, the oldest first. -/
structure Fitted (a : Night) (s : Shrinking) (f : Night) : Prop where
  changed : ∃ t, (do delayDumps; reinstate) ⟨a, []⟩ = .ok s.log.reverse t ∧ t.night = s.night
  settled : s.log.reverse.forM settle s.night = .ok () f
  revised : Revised a ⟨a, []⟩ s
  reported : Reported s.log s.night f
  told : ∀ image ∈ s.log, f.place image.record ≠ none

namespace Fitted

theorem changes (h : Fitted a s f) : Changes ⟨a, []⟩ s := h.revised.changes

theorem logged (h : Fitted a s f) (ha : a.Orderly) : Logged a s.night s.log :=
  Logged.changes (s := ⟨a, []⟩) (.refl ha) h.changes

theorem orderly (h : Fitted a s f) (ha : a.Orderly) : f.Orderly :=
  h.reported.orderly (h.logged ha).orderly

theorem same (h : Fitted a s f) (ha : a.Orderly) : a.SameDisks f :=
  (h.logged ha).same.trans h.reported.same

/-- Records that were not scheduled are not touched. -/
theorem others (h : Fitted a s f) (ha : a.Orderly) (hp : a.place id ≠ some .scheduled) :
    f.place id = a.place id ∧ (f.plan id).fault = (a.plan id).fault := by
  have hl := h.logged ha
  obtain ⟨hplace, hfault⟩ := hl.others hp
  refine ⟨?_, by rw [h.reported.plan, hfault]⟩
  rcases h.reported.place id with e | ⟨-, -, image, hi, rfl⟩
  · exact e.trans hplace
  · exact absurd (hl.origin image hi) hp

/-- A record that was scheduled still is, or it has failed for a reason. -/
theorem each (h : Fitted a s f) (ha : a.Orderly) (hp : a.place id = some .scheduled) :
    f.place id = some .scheduled ∨ (f.place id = some .failed ∧ (f.plan id).fault.isSome) := by
  rw [h.reported.plan]
  rcases (h.logged ha).each hp with hs | ⟨hnone, hfault, image, hi, rfl, -⟩
  · exact Or.inl (h.reported.scheduled_iff.mpr hs)
  · refine Or.inr ⟨?_, hfault⟩
    rcases h.reported.place image.record with e | ⟨-, e, -⟩
    · exact absurd (e.trans hnone) (h.told image hi)
    · exact e

end Fitted

namespace Planning

@[simp]
theorem leads_withLog {α : Type} {act : Delaying α} {post : α → Night → Prop} :
    Leads (withLog act) n post fail ↔
      Leads act ⟨n, []⟩ (fun a s => post a s.night) (fun e s => fail e s.night) := by
  simp only [Leads, withLog]
  cases act ⟨n, []⟩ <;> rfl

/-- Delaying and reinstating are a run of changes; what is scheduled then is not too big if it
fits. -/
theorem leads_change (ha : a.Orderly) :
    Leads (do delayDumps; reinstate) ⟨a, []⟩
      (fun kept t => Revised a ⟨a, []⟩ ⟨t.night, kept.reverse⟩ ∧
        ((∀ d, a.media.volume ≤ a.media.ceiling d) → Shrunk [] t.night)) (fun _ _ => False) := by
  have hl : Logged a a [] := .refl ha
  rw [leads_bind]
  apply (leads_delayDumps (s := ⟨a, []⟩) hl).imp
  rintro _ s ⟨u, hu⟩
  have hus := hu.begun.trans hu.ended
  apply (leads_reinstate (hl.changes (s := ⟨a, []⟩) hus.changes)).imp
  rintro kept t ⟨ht, hshrunk⟩
  refine ⟨hus.trans ht, fun hv => hshrunk ?_⟩
  have hcovered := (Covered.of_bounded (hu.bounded hv)).changes
    (hl.changes (s := ⟨a, []⟩) hu.begun.changes) hu.ended.changes
  rcases hu.room with hsize | hfulls
  · exact .fits hsize hcovered
  · by_cases hsize : s.night.totals.size ≤ s.night.media.capacity
    · exact .fits hsize hcovered
    · exact .full (Nat.lt_of_not_le hsize) hfulls

/-- **Fitting.** Fitting ends with a schedule that fits, or with the fault that none does. -/
theorem leads_fit (ha : a.Orderly) :
    Leads fit a (fun _ f => ∃ s, Fitted a s f ∧ f.totals.size ≤ f.media.capacity ∧
        ((∀ d, a.media.volume ≤ a.media.ceiling d) → ∀ id,
          f.place id = some .scheduled → f.Bounded id))
      (fun e f => (∃ why, e = .unfittable why) ∧ ∃ s, Fitted a s f) := by
  simp only [fit, leads_bind, leads_get, leads_withLog]
  rw [← leads_bind]
  refine (leads_change ha).run.mono ?_ fun _ _ => False.elim
  rintro kept t ⟨hrun, hc, hshrunk⟩
  have hl : Logged a t.night kept.reverse := Logged.changes (s := ⟨a, []⟩) (.refl ha) hc.changes
  apply (leads_settleLog hl (List.reverse_perm _).symm).run.imp
  rintro _ f ⟨hsettled, hf, htold⟩
  have hfitted : Fitted a ⟨t.night, kept.reverse⟩ f :=
    ⟨⟨t, by rwa [List.reverse_reverse], rfl⟩, by rwa [List.reverse_reverse], hc, hf, htold⟩
  split
  · rw [leads_bind, leads_throw]
    exact ⟨⟨_, rfl⟩, _, hfitted⟩
  · split
    · exact ⟨⟨_, rfl⟩, _, hfitted⟩
    · rename_i hsize
      refine ⟨_, hfitted, Nat.le_of_not_lt hsize, fun hv id hp => ?_⟩
      rw [hf.totals, hf.media] at hsize
      rw [Night.Bounded, hf.plan, hf.media]
      cases hshrunk hv with
      | fits _ covered =>
        rcases covered id (hf.scheduled_iff.mp hp) with hb | ⟨_, hi, -⟩
        · exact hb
        · cases hi
      | full hbig _ => exact absurd hbig hsize

/-- Fitting ends in one of these two ways. -/
theorem exists_fitted (ha : a.Orderly) : ∃ s f, Fitted a s f ∧
    (fit a = .ok () f ∨ ∃ why, fit a = .error (.unfittable why) f) := by
  rcases (leads_fit ha).outcome with ⟨_, f, hrun, s, hf, -⟩ | ⟨_, f, hrun, ⟨why, rfl⟩, s, hf⟩
  · exact ⟨s, f, hf, Or.inl hrun⟩
  · exact ⟨s, f, hf, Or.inr ⟨why, hrun⟩⟩

/-! ## Fitting once more -/

/-- A schedule that fits stays as it is. -/
theorem fit_of_fits (hf : f.Orderly) (hsize : f.totals.size ≤ f.media.capacity)
    (hbounded : ∀ id, f.place id = some .scheduled → f.Bounded id) : fit f = .ok () f := by
  have hfit : Leads fit f (fun _ k => k = f) never := by
    simp only [fit, leads_bind, leads_get, leads_withLog]
    apply (leads_delayDumps_fits (s := ⟨f, []⟩) hf hsize hbounded).imp
    rintro _ _ rfl
    simp only [reinstate, reinstateFrom, leads_bind, leads_get, leads_pure]
    show Leads (if (!f.scheduled.isEmpty && f.scheduled.isEmpty) = true then _ else _) f _ never
    rw [Bool.not_and_self, if_neg Bool.false_ne_true, if_neg (Nat.not_lt.mpr hsize)]
    rfl
  obtain ⟨_, _, h, rfl⟩ := hfit.exists_ok
  exact h

end Planning

/-- A dump that fits on one volume is not too big for one run. -/
theorem Media.volume_le_ceiling {s : Settings} (h : s.tapeLength ≤ Settings.wordLimit) (d : Disk) :
    (Media.ofSettings s).volume ≤ (Media.ofSettings s).ceiling d := by
  unfold Media.ceiling
  split
  · refine Nat.le_min.mpr ⟨?_, h⟩
    exact Nat.le_mul_of_pos_right _ (Nat.lt_of_lt_of_le Nat.one_pos (Nat.le_max_right ..))
  · exact Nat.le_refl _

/-- **Room on the media.** Whatever was analysed, a schedule that has been fitted is not too
big for tonight's media, none of its dumps is too big for one run, and it would be left alone if
it were fitted once more. -/
theorem fitted_schedule_has_room {g : Night} {settings : Settings} (hs : g.Sound)
    (he : g.scheduled = []) (hmedia : g.media = Media.ofSettings settings)
    (htape : settings.tapeLength ≤ Settings.wordLimit)
    (hanalyzed : Planning.analyzeAll g = .ok () a) (hfit : Planning.fit a = .ok () f) :
    f.totals.size ≤ g.media.capacity ∧
      (∀ id ∈ f.scheduled, (f.plan id).dumpMediaSize ≤ g.media.ceiling (f.plan id).disk) ∧
      Planning.fit f = .ok () f := by
  have ha := (Planning.leads_analyzeAll hs he).reached hanalyzed
  obtain ⟨s, hfitted, hsize, hbounded⟩ := (Planning.leads_fit ha.orderly).ok hfit
  have hf := hfitted.orderly ha.orderly
  have hsame : f.media = g.media :=
    hfitted.reported.media.trans ((hfitted.logged ha.orderly).media.trans ha.media)
  have hroom : ∀ id, f.place id = some .scheduled → f.Bounded id := by
    refine hbounded fun d => ?_
    rw [ha.media, hmedia]
    exact Media.volume_le_ceiling htape d
  refine ⟨?_, fun id hid => ?_, Planning.fit_of_fits hf hsize hroom⟩
  · rwa [← hsame]
  · rw [← hsame]
    exact hroom id (hf.sound.mem_scheduled.mp hid)

/-- A schedule of one dump that has room is fitted as it is. -/
theorem fitted_schedule_has_room_for_one : ∃ g a, g.Sound ∧ g.scheduled = [] ∧
    g.media = Media.ofSettings {} ∧ Planning.analyzeAll g = .ok () a ∧
    Planning.fit a = .ok () a ∧ a.scheduled = [0] ∧ a.totals.size ≤ g.media.capacity ∧
    (a.plan 0).dumpMediaSize ≤ g.media.ceiling (a.plan 0).disk := by
  obtain ⟨g, a, hs, he, hmedia, ha, hscheduled, hsize, hdump⟩ := Planning.analyzeAll_of_one_size
  have hdrawn := (Planning.leads_analyzeAll hs he).reached ha
  have hfits : a.totals.size ≤ a.media.capacity := by
    rw [hsize, hdrawn.media, hmedia]
    decide
  have hbounded : ∀ id, a.place id = some .scheduled → a.Bounded id := by
    intro id hp
    have hm := hdrawn.orderly.sound.mem_scheduled.mpr hp
    rw [hscheduled, List.mem_singleton] at hm
    rw [hm, Night.Bounded, hdump, hdrawn.media, hmedia]
    exact Nat.le_trans (by decide) (Media.volume_le_ceiling (s := {}) (by decide) _)
  have hfit := Planning.fit_of_fits hdrawn.orderly hfits hbounded
  obtain ⟨hroom, hceiling, -⟩ :=
    fitted_schedule_has_room (a := a) hs he hmedia (by decide) ha hfit
  exact ⟨g, a, hs, he, hmedia, ha, hfit, hscheduled, hroom,
    hceiling 0 (by simp [hscheduled])⟩

end NightlyBackup
