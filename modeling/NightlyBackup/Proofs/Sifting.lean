import NightlyBackup.Proofs.Rearranging

/-!
Dumps that are too big for one run. The first pass looks at every dump of the schedule once. What is
not too big it leaves alone; an incremental that is too big is dropped; and a full dump that is too
big gives way to its fallback, unless the disk must not have one or the fallback takes more than one
volume.
-/

namespace NightlyBackup

open Night Planning Delaying

namespace Night

def tooBig (n : Night) (id : Nat) : Bool :=
  n.media.ceiling (n.plan id).disk < (n.plan id).dumpMediaSize

end Night

namespace DiskPlan

variable {p : DiskPlan} {limit slot : Nat}

/-- The full dump may give way to its fallback, if fallbacks of up to `limit` KB are taken. -/
structure GivesWay (p : DiskPlan) (limit : Nat) : Prop where
  full : p.isFull = true
  incremental : p.disk.skipIncr = false
  known : p.isNew = false
  fallback : ∃ slot size, p.degraded = some slot ∧ p.mediaSize? slot = some size ∧ size ≤ limit

def weighed (p : DiskPlan) : DiskPlan :=
  match p.isFull, cannotFallBack? p, p.degraded with
  | true, none, some slot => p.fixMedia slot
  | _, _, _ => p

theorem weighed_cases (p : DiskPlan) : p.weighed = p ∨ ∃ slot, p.weighed = p.fixMedia slot := by
  unfold weighed
  split
  · exact Or.inr ⟨_, rfl⟩
  · exact Or.inl rfl

theorem held_weighed (p : DiskPlan) : p.Held p.weighed := by
  rcases p.weighed_cases with h | ⟨slot, h⟩
  · rw [h]
    exact .refl
  · rw [h]
    exact p.held_fixMedia slot

theorem cannotFallBack?_eq_none : cannotFallBack? p = none ↔
    p.disk.skipIncr = false ∧ p.isNew = false ∧ p.degraded.isSome = true := by
  unfold cannotFallBack?
  cases p.disk.skipIncr <;> cases p.isNew <;> cases p.degraded <;> simp

end DiskPlan

namespace Delaying

variable {a n k : Night} {s t : Shrinking} {id : Nat} {ids : List Nat} {p : DiskPlan}
  {fail : Fault → Shrinking → Prop}

/-! ## One dump -/

/-- An oversize dump is not dropped if its fallback fits on one volume. -/
theorem judgeOversize_iff (hp : p.Planned) :
    (judgeOversize n p).1 = false ↔ p.GivesWay n.media.volume := by
  constructor
  · intro hjudge
    obtain ⟨hfull, hnone, hsize⟩ := judgeOversize_soft hjudge
    obtain ⟨hincr, hnew, hsome⟩ := DiskPlan.cannotFallBack?_eq_none.mp hnone
    obtain ⟨slot, hd⟩ := Option.isSome_iff_exists.mp hsome
    obtain ⟨size, hm⟩ := Option.isSome_iff_exists.mp (hp.fallback hd).1
    rw [hd, Option.bind_some, hm] at hsize
    exact ⟨hfull, hincr, hnew, slot, size, hd, hm, hsize⟩
  · rintro ⟨hfull, hincr, hnew, slot, size, hd, hm, hsize⟩
    have hnone := DiskPlan.cannotFallBack?_eq_none.mpr ⟨hincr, hnew, hd ▸ rfl⟩
    have hfits : ¬((p.degraded.bind p.mediaSize?).getD 0) > n.media.volume := by
      rw [hd, Option.bind_some, hm]
      exact Nat.not_lt.mpr hsize
    rw [judgeOversize, if_pos hfull, hnone]
    simp only [if_neg hfits]

def oversizeReason (n : Night) (p : DiskPlan) : String :=
  reasonWith "dump larger than available tape space," p.dumpMediaSize (judgeOversize n p).2

/-- The dump of a record, which is too big in `n`, has been put off in `k`. -/
def Judged (n k : Night) (id : Nat) : Prop :=
  PutOff (n.plan id).weighed (judgeOversize n (n.plan id)).1 (oversizeReason n (n.plan id))
    (k.plan id) (k.place id)

theorem Judged.congr {m : Night} (h : Judged m k id) (hmedia : m.media = n.media)
    (hplan : m.plan id = n.plan id) : Judged n k id := by
  have hjudge : ∀ p, judgeOversize m p = judgeOversize n p := by
    intro p
    rw [judgeOversize, judgeOversize, hmedia]
  rw [Judged, oversizeReason, hjudge, hplan] at h
  exact h

/-- A dump is put off that is too big in `n`; meanwhile its fallback has been looked at. -/
theorem leads_delay_judged {m : Night} {log : List BeforeImage} (hm : m.Orderly)
    (hp : m.place id = some .scheduled) (hplan : m.plan id = (n.plan id).weighed) :
    Leads (delay id (judgeOversize n (n.plan id)).1 (oversizeReason n (n.plan id))) ⟨m, log⟩
      (fun _ t => ∃ image, image.record = id ∧ Delayed image ⟨m, log⟩ t ∧ Judged n t.night id)
      fail := by
  have hfall : (judgeOversize n (n.plan id)).1 = false → CanFallBack (m.plan id) := by
    intro hjudge
    obtain ⟨hfull, hnone, -⟩ := judgeOversize_soft hjudge
    obtain ⟨-, hsome⟩ := canFallBack_of_none hfull hnone
    have hheld := (n.plan id).held_weighed
    rw [hplan, CanFallBack, hheld.keeps (f := DiskPlan.isFull) fun _ _ => DiskPlan.isFull_fixMedia,
      hheld.keeps (f := DiskPlan.degraded) fun _ _ => rfl]
    exact ⟨hfull, hsome⟩
  have hdelay : Leads (delay id _ (oversizeReason n (n.plan id))) ⟨m, log⟩ _ never :=
    leads_delay_delayed hm hp hfall
  have hplain : Leads (delay id _ (oversizeReason n (n.plan id))) ⟨m, log⟩ _ never :=
    leads_delayed hm hp hfall
  refine (hdelay.and hplain).mono ?_ fun _ _ h => h.1.elim
  rintro _ t ⟨hd, -, hoff⟩
  rw [hplan] at hoff
  exact ⟨_, rfl, hd, hoff⟩

/-- **One visit of the first pass.** Only a dump that is too big for one run is put off. -/
theorem leads_sift (hs : s.night.Orderly) (hp : s.night.place id = some .scheduled) :
    Leads (delayIfOversize id) s (fun _ t =>
      if s.night.tooBig id then ∃ image, image.record = id ∧ Thinned s [image] t ∧
        Visited id s t ∧ Judged s.night t.night id
      else t = s) fail := by
  simp only [delayIfOversize, leads_bind, leads_getNight, leads_lift,
    leads_iff_of_ok (Planning.dumpMediaSize_ok (hs.planned hp)), Night.tooBig, decide_eq_true_eq]
  split
  · split
    · rename_i slot hfull hnone hd
      have hplan : (s.night.setPlan id (·.fixMedia slot)).plan id = (s.night.plan id).weighed := by
        rw [plan_setPlan_self (hs.sound.lt_of_place hp), DiskPlan.weighed, hfull, hnone, hd]
      simp only [leads_bind, leads_lift, Planning.setPlan, leads_modify]
      refine (leads_delay_judged (hs.looked id slot) hp hplan).imp ?_
      rintro _ t ⟨image, rfl, hd, hjudged⟩
      exact ⟨image, rfl, .looked _ slot (.delayed hd (.refl t)),
        (Visited.looked slot).trans hd.visited, hjudged⟩
    · rename_i hother
      have hplan : s.night.plan id = (s.night.plan id).weighed := by
        rw [DiskPlan.weighed]
        split
        · rename_i slot hfull hnone hd
          exact absurd hd (hother slot hfull hnone)
        · rfl
      refine (leads_delay_judged hs hp hplan).imp ?_
      rintro _ t ⟨image, rfl, hd, hjudged⟩
      exact ⟨image, rfl, .delayed hd (.refl t), hd.visited, hjudged⟩
  · rfl

/-! ## The pass -/

/-- What the first pass makes of the records `ids`: those that are too big are put off, one after
the other. -/
structure Sifted (ids : List Nat) (s : Shrinking) (images : List BeforeImage) (t : Shrinking) :
    Prop where
  thinned : Thinned s images t
  records : images.map (·.record) = ids.filter s.night.tooBig
  spared : ∀ id, (id ∈ ids → s.night.tooBig id = false) →
    t.night.plan id = s.night.plan id ∧ t.night.place id = s.night.place id
  judged : ∀ id ∈ ids, s.night.tooBig id = true → Judged s.night t.night id

/-- **The first pass.** -/
theorem leads_sifted (hs : Logged a s.night s.log) (hids : ids.Nodup)
    (hp : ∀ id ∈ ids, s.night.place id = some .scheduled) :
    Leads (ids.forM delayIfOversize) s (fun _ t => ∃ images, Sifted ids s images t) fail := by
  induction ids generalizing s with
  | nil => exact ⟨[], .refl s, rfl, fun _ _ => ⟨rfl, rfl⟩, by simp⟩
  | cons id ids ih =>
    obtain ⟨hid, hids⟩ := List.nodup_cons.mp hids
    obtain ⟨hpid, hp⟩ := List.forall_mem_cons.mp hp
    show Leads (delayIfOversize id >>= fun _ => ids.forM delayIfOversize) s _ fail
    rw [leads_bind]
    apply (leads_sift hs.orderly hpid).imp
    rintro _ t hsift
    by_cases hbig : s.night.tooBig id = true
    · rw [if_pos hbig] at hsift
      obtain ⟨image, hrecord, hthinned, hv, hjudged⟩ := hsift
      have hne : ∀ j ∈ ids, j ≠ id := fun j hj => ne_of_mem_of_not_mem hj hid
      have hsame : ∀ {j}, j ≠ id → t.night.tooBig j = s.night.tooBig j := by
        intro j hj
        rw [Night.tooBig, hv.media, hv.plan hj]
        rfl
      have hplaces : ∀ j ∈ ids, t.night.place j = some .scheduled := by
        intro j hj
        rw [hv.place (hne j hj)]
        exact hp j hj
      apply (ih (hs.changes hv.changes) hids hplaces).imp
      rintro _ u ⟨images, hu⟩
      refine ⟨image :: images, hthinned.trans hu.thinned, ?_, fun j hj => ?_, fun j hj hjbig => ?_⟩
      · rw [List.map_cons, hu.records, List.filter_cons_of_pos hbig, hrecord,
          List.filter_congr fun j hj => hsame (hne j hj)]
      · have hjid : j ≠ id := by
          rintro rfl
          cases hbig.symm.trans (hj List.mem_cons_self)
        rw [← hv.plan hjid, ← hv.place hjid]
        exact hu.spared j fun hmem => (hsame hjid).trans (hj (List.mem_cons_of_mem _ hmem))
      · rcases List.mem_cons.mp hj with rfl | hj
        · obtain ⟨hplan, hplace⟩ := hu.spared j fun hmem => absurd hmem hid
          rw [Judged, hplan, hplace]
          exact hjudged
        · exact (hu.judged j hj ((hsame (hne j hj)).trans hjbig)).congr hv.media
            (hv.plan (hne j hj))
    · rw [if_neg hbig] at hsift
      subst hsift
      apply (ih hs hids hp).imp
      rintro _ u ⟨images, hu⟩
      have hsmall := eq_false_of_ne_true hbig
      refine ⟨images, hu.thinned, ?_, fun j hj => hu.spared j fun hmem =>
        hj (List.mem_cons_of_mem _ hmem), fun j hj hjbig => ?_⟩
      · rw [hu.records, List.filter_cons_of_neg hbig]
      · rcases List.mem_cons.mp hj with rfl | hj
        · exact absurd hjbig hbig
        · exact hu.judged j hj hjbig

/-- The dump of a record has given way to its fallback, and nothing else of its plan has changed. -/
def GaveWay (n k : Night) (id : Nat) : Prop :=
  k.place id = some .scheduled ∧
    ∃ slot, (n.plan id).degraded = some slot ∧ k.plan id = fallenBack (n.plan id) slot

/-- The dump of a record has been dropped for a reason, and nothing else of its plan has changed. -/
def Removed (n k : Night) (id : Nat) (reason : String) : Prop :=
  k.place id = none ∧ ∃ p, (n.plan id).Held p ∧ k.plan id = { p with fault := some reason }

namespace Judged

/-- A dump falls back to the same, whether its fallback has been looked at before or not. -/
theorem fallenBack_fixMedia (p : DiskPlan) (slot : Nat) :
    fallenBack (p.fixMedia slot) slot = fallenBack p slot :=
  (DiskPlan.standsAt_fixMedia { p with dump := some slot } slot).fixMedia_eq

theorem gaveWay (h : Judged n k id) (hp : (n.plan id).Planned)
    (hgives : (n.plan id).GivesWay n.media.volume) : GaveWay n k id := by
  obtain ⟨slot, size, hd, -⟩ := hgives.fallback
  have hnone := DiskPlan.cannotFallBack?_eq_none.mpr
    ⟨hgives.incremental, hgives.known, hd ▸ rfl⟩
  have hweighed : (n.plan id).weighed = (n.plan id).fixMedia slot := by
    rw [DiskPlan.weighed, hgives.full, hnone, hd]
  rw [Judged, (judgeOversize_iff hp).mpr hgives, hweighed] at h
  obtain ⟨⟨slot', hd', hplan⟩, hplace⟩ := h
  obtain rfl : slot = slot' := Option.some.inj (hd.symm.trans hd')
  rw [fallenBack_fixMedia] at hplan
  exact ⟨hplace, slot, hd, hplan⟩

theorem removed (h : Judged n k id) (hp : (n.plan id).Planned)
    (hgives : ¬(n.plan id).GivesWay n.media.volume) :
    Removed n k id (oversizeReason n (n.plan id)) := by
  have hjudge : (judgeOversize n (n.plan id)).1 = true :=
    eq_true_of_ne_false fun e => hgives ((judgeOversize_iff hp).mp e)
  rw [Judged, hjudge] at h
  obtain ⟨hplan, hplace⟩ := h
  exact ⟨hplace, _, (n.plan id).held_weighed, hplan⟩

end Judged

/-- **What is too big.** The first pass puts off exactly the dumps of the schedule that are too big
for one run, in the order of the schedule, and leaves all other records as they are. A full dump
gives way to its fallback, if the disk may have one and it fits on one volume; every other dump is
dropped. -/
theorem oversize_dumps_sifted (hn : n.Orderly) :
    ∃ t, n.scheduled.forM delayIfOversize ⟨n, []⟩ = .ok () t ∧
      t.log.reverse.map (·.record) = n.scheduled.filter n.tooBig ∧
      (∀ id, (id ∈ n.scheduled → n.tooBig id = false) →
        t.night.plan id = n.plan id ∧ t.night.place id = n.place id) ∧
      ∀ id ∈ n.scheduled, n.tooBig id = true →
        ((n.plan id).GivesWay n.media.volume → GaveWay n t.night id) ∧
        (¬(n.plan id).GivesWay n.media.volume →
          Removed n t.night id (oversizeReason n (n.plan id))) := by
  have hpass : Leads (n.scheduled.forM delayIfOversize) ⟨n, []⟩ _ never :=
    leads_sifted (s := ⟨n, []⟩) (.refl hn) hn.sound.nodup_scheduled
      fun _ => hn.sound.mem_scheduled.mp
  obtain ⟨_, t, hrun, images, h⟩ := hpass.exists_ok
  have hlog : t.log.reverse = images := by simp [h.thinned.log]
  refine ⟨t, hrun, by rw [hlog, h.records], h.spared, fun id hid hbig => ?_⟩
  have hplanned := hn.planned (hn.sound.mem_scheduled.mp hid)
  exact ⟨(h.judged id hid hbig).gaveWay hplanned, (h.judged id hid hbig).removed hplanned⟩

def bulky : Night := threeDumps 900 1000 100 950 450

/-- Of the bulky dumps the full one gives way and the incremental is dropped. -/
theorem bulky_dumps_sifted : bulky.Orderly ∧
    ∃ t, bulky.scheduled.forM delayIfOversize ⟨bulky, []⟩ = .ok () t ∧
      t.log.reverse.map (·.record) = [0, 1] ∧ GaveWay bulky t.night 0 ∧
      Removed bulky t.night 1
        "dump larger than available tape space, 950 KB, skipping incremental" ∧
      t.night.plan 2 = bulky.plan 2 ∧ t.night.place 2 = some .scheduled := by
  have horderly : bulky.Orderly := threeDumps_orderly ..
  obtain ⟨t, hrun, hlog, hspared, hjudged⟩ := oversize_dumps_sifted horderly
  obtain ⟨hplan, hplace⟩ := hspared 2 fun _ => by decide
  refine ⟨horderly, t, hrun, hlog, (hjudged 0 (by decide) (by decide)).1 ?_,
    (hjudged 1 (by decide) (by decide)).2 fun h => ?_, hplan, hplace⟩
  · exact ⟨by decide, by decide, by decide, 1, 100, by decide, by decide, by decide⟩
  · exact absurd h.full (by decide)

/-- A full dump of 5000 KB on a disk that may be split over two tapes of 2000 KB each. Its fallback
takes 3000 KB. -/
def twoVolumes : Night :=
  match Night.begin { tapeLength := 2000, runTapes := 2 }
    [{ Disk.plain "alpha" "/home" 10 default with allowSplit := true }] default 0 with
  | .ok n => (n.withDump 0 [(0, 5000), (1, 3000)] (some 1)).counted
  | .error _ => default

theorem twoVolumes_orderly : twoVolumes.Orderly := by
  obtain ⟨n, hbegin, hlength, htwo⟩ : ∃ n, Night.begin { tapeLength := 2000, runTapes := 2 }
      [{ Disk.plain "alpha" "/home" 10 default with allowSplit := true }] default 0 = .ok n ∧
      n.plans.length = 1 ∧
      twoVolumes = (n.withDump 0 [(0, 5000), (1, 3000)] (some 1)).counted := ⟨_, rfl, rfl, rfl⟩
  have hfresh := fresh_of_begin hbegin
  rw [htwo]
  exact (hfresh.drafted.withDump (by omega) (hfresh.place 0) (by simp) (by simp)).counted

set_option synthInstance.maxSize 1000 in
/-- A fallback that fits on the tapes of one run is not taken when it takes more than one of
them. -/
theorem fallback_of_two_volumes_not_taken : twoVolumes.Orderly ∧ 0 ∈ twoVolumes.scheduled ∧
    twoVolumes.tooBig 0 = true ∧
    (twoVolumes.plan 0).GivesWay (twoVolumes.media.ceiling (twoVolumes.plan 0).disk) ∧
    ∃ t, twoVolumes.scheduled.forM delayIfOversize ⟨twoVolumes, []⟩ = .ok () t ∧
      t.night.place 0 = none ∧ ¬GaveWay twoVolumes t.night 0 := by
  have hpass : Leads (twoVolumes.scheduled.forM delayIfOversize) ⟨twoVolumes, []⟩
      (fun _ t => t.night.place 0 = none) never := by decide +kernel
  obtain ⟨_, t, hrun, hgone⟩ := hpass.exists_ok
  refine ⟨twoVolumes_orderly, by decide, by decide, ?_, t, hrun, hgone, fun h => ?_⟩
  · exact ⟨by decide, by decide, by decide, 1, 3000, by decide, by decide, by decide⟩
  · cases hgone.symm.trans h.1

end Delaying

end NightlyBackup
