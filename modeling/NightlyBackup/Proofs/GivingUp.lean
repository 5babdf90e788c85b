import NightlyBackup.Proofs.Economy

/-!
When fitting fails. The passes put off whatever may be put off, and nothing was put back if the
schedule is empty or too big in the end. So fitting fails only if the full dumps that must stay take
too much already, or if none of the dumps can be on the media even alone.
-/

namespace NightlyBackup

open Night Planning Delaying

namespace Night

def forcedWithin (n : Night) : List Nat :=
  n.scheduled.filter fun id =>
    (n.plan id).isFull && (n.plan id).directives.forceFull && !n.tooBig id

def taken (n : Night) (ids : List Nat) : Nat :=
  n.media.emptyTape + totalSize (ids.map fun id => n.media.dumpCost (n.plan id).dumpMediaSize)

/-- The full dumps that the operator asked for and that must not be put off: all of them, or the
one that is kept in any case. -/
def MustStay (n : Night) (ids : List Nat) : Prop :=
  if n.settings.delayForcedFulls then
    ∃ id, ids = [id] ∧ FirstBest (fun i j => (n.plan i).Dearer (n.plan j)) n.forcedWithin id
  else ids = n.forcedWithin

end Night

variable {a n f k : Night} {s t : Shrinking} {id : Nat}
  {images log : List BeforeImage} {image : BeforeImage} {why : Misfit}

/-! ## Which fault ends fitting -/

/-- Fitting fails if no dump is left of those that were scheduled, or if the schedule is still too
big. -/
theorem Fitted.unfit (h : Fitted a s f) (hfit : fit a = .error (.unfittable why) k) :
    k = f ∧ (a.scheduled ≠ [] ∧ f.scheduled = [] ∨ f.media.capacity < f.totals.size) := by
  have hends : Leads fit a (fun _ _ => True) (fun _ k => k = f ∧
      (a.scheduled ≠ [] ∧ f.scheduled = [] ∨ f.media.capacity < f.totals.size)) := by
    obtain ⟨t, hchanged, ht⟩ := h.changed
    simp only [fit, leads_bind, leads_get, leads_withLog]
    rw [← leads_bind, leads_iff_of_ok hchanged, ht, leads_iff_of_ok h.settled]
    split
    · rename_i hempty
      rw [leads_bind, leads_throw]
      exact ⟨rfl, Or.inl (by simpa using hempty)⟩
    · split
      · rename_i hsize
        exact ⟨rfl, Or.inr hsize⟩
      · trivial
  rcases hends.outcome with ⟨_, _, hok, -⟩ | ⟨_, _, hfail, hk⟩
  · cases hfit.symm.trans hok
  · cases hfit.symm.trans hfail
    exact hk

/-- Reports neither put a dump on the schedule nor take one off it. -/
theorem Reported.scheduled_eq_nil (h : Reported log n f) (hn : n.Sound) :
    f.scheduled = [] ↔ n.scheduled = [] := by
  simp only [List.eq_nil_iff_forall_not_mem, h.sound.mem_scheduled, hn.mem_scheduled,
    h.scheduled_iff]

/-! ## Nothing was put back -/

namespace Delaying

def HasRoom (n : Night) : Prop := n.scheduled ≠ [] ∧ n.totals.size ≤ n.media.capacity

/-- A change that cannot be undone, or not without the schedule or the dump being too big. -/
def Refused (n : Night) (image : BeforeImage) : Prop :=
  ∀ total, undoneSize? n image = some total → ¬Fits n image total

/-- A schedule fits when a change has been undone. -/
theorem Undone.hasRoom {total : Nat} (h : Undone image n total k) (hfits : Fits n image total) :
    HasRoom k := by
  obtain ⟨horderly, hsize, tot, hb⟩ := h
  have hmedia : k.media = n.media := hb.alike.media
  refine ⟨List.ne_nil_of_mem (horderly.sound.mem_scheduled.mpr hb.place), ?_⟩
  rw [hsize, hmedia]
  exact hfits.1

/-- **Nothing put back.** If going through the log does not end with a schedule that fits, every
change stands, and the night is as it was, but for what has overflowed. -/
theorem leads_reinstateFrom_refused (h : Logged a n log) :
    Leads (reinstateFrom [] log) ⟨n, log⟩ (fun _ t =>
      HasRoom t.night ∨ (∃ what, t.night = n.reckon what) ∧ ∀ image ∈ log, Refused n image)
      never := by
  have hreplay : Leads (reinstateFrom [] log) ⟨n, log⟩ _ never := leads_reinstateFrom_keeps
    (I := fun m _ rest => HasRoom m ∨
      (∃ what, m = n.reckon what) ∧ ∀ image ∈ log, image ∈ rest ∨ Refused n image)
    ?undone ?stands ?reckon h (Or.inr ⟨⟨none, reckon_none.symm⟩, fun _ hi => Or.inl hi⟩)
  · exact hreplay.imp fun _ _ ⟨_, hends⟩ => by simpa using hends
  case undone =>
    intro m k kept older image total _ _ _ hfits hk _
    exact Or.inl (hk.hasRoom hfits)
  case stands =>
    rintro m kept older image - hnever (hroom | ⟨⟨what, rfl⟩, hall⟩)
    · exact Or.inl hroom
    · refine Or.inr ⟨⟨what, rfl⟩, fun i hi => ?_⟩
      rcases hall i hi with hmem | hrefused
      · rcases List.mem_cons.mp hmem with rfl | hmem
        · exact Or.inr hnever
        · exact Or.inl hmem
      · exact Or.inr hrefused
  case reckon =>
    rintro m kept older other (hroom | ⟨⟨what, rfl⟩, hall⟩)
    · exact Or.inl hroom
    · exact Or.inr ⟨⟨_, reckon_reckon⟩, hall⟩

/-! ## What the passes leave -/

theorem Pass.exceeds {Next : Night → Nat → Prop} (h : Pass Next s images t)
    (ht : t.night.media.capacity < t.night.totals.size) :
    s.night.media.capacity < s.night.totals.size := by
  cases h with
  | done => exact ht
  | step hexceeds => exact hexceeds

variable {b c : Shrinking} {fulls forced incrementals : List BeforeImage}

/-- When the full dumps that nobody asked for are gone, those are left that the operator asked for
and that are not too big. -/
theorem AllThinned.fulls_left (h : AllThinned n t b c s fulls forced incrementals)
    (hoversize : t.log.reverse.map (·.record) = n.scheduled.filter n.tooBig)
    (hnone : b.night.unforced = []) : b.night.fulls = n.forcedWithin := by
  have hfirst : t.night.fulls = n.fulls.filter fun id => !n.tooBig id := by
    rw [h.oversize.fulls, hoversize]
    refine List.filter_congr fun id hid => ?_
    simp [(List.mem_filter.mp hid).1]
  have hleft : ∀ id ∈ t.night.fulls, decide (id ∉ fulls.map (·.record)) =
      (n.plan id).directives.forceFull := by
    intro id hid
    have hplan : (t.night.plan id).directives = (n.plan id).directives :=
      (h.oversize.held_of_mem_fulls hid).keeps fun _ _ => rfl
    rw [← hplan]
    obtain ⟨hscheduled, hfull⟩ := List.mem_filter.mp hid
    cases hforce : (t.night.plan id).directives.forceFull with
    | true =>
      refine decide_eq_true fun hmem => ?_
      obtain ⟨image, hi, rfl⟩ := List.mem_map.mp hmem
      simpa [hforce] using (List.mem_filter.mp (h.unforced image hi)).2
    | false =>
      refine decide_eq_false fun hnot => ?_
      have hmem : id ∈ b.night.unforced := by
        rw [h.yielded.unforced]
        refine List.mem_filter.mpr ⟨List.mem_filter.mpr ⟨hscheduled, ?_⟩, decide_eq_true hnot⟩
        simp [hfull, hforce]
      rw [hnone] at hmem
      cases hmem
  rw [h.yielded.fulls, List.filter_congr hleft, hfirst, Night.fulls, List.filter_filter,
    List.filter_filter, Night.forcedWithin]
  refine List.filter_congr fun id _ => ?_
  cases (n.plan id).isFull <;> cases n.tooBig id <;> simp

/-- The pass over the full dumps that the operator asked for spares the one that is kept in any
case, so this one is the same afterwards. -/
theorem LastPasses.kept_before (h : LastPasses b c s forced incrementals)
    (ht : LastThinned b c s forced incrementals) (hid : c.night.Kept id) : b.night.Kept id := by
  have hbest := preserves_preserved? b.night
  cases hpreserved : preserved? b.night with
  | none =>
    rw [hpreserved] at hbest
    have hmem := hid.mem
    rw [ht.insisted.fulls, show b.night.fulls = [] from hbest] at hmem
    cases hmem
  | some best =>
    rw [hpreserved] at hbest
    have hspared : ∀ image ∈ forced, image.record ≠ best := by
      rintro image hi rfl
      exact h.spared image hi hbest
    obtain rfl := FirstBest.unique (ht.insisted.kept hspared hbest) hid
    exact hbest

/-- When full dumps that the operator asked for may be put off and the schedule does not fit still,
only the one that is kept in any case is left. -/
theorem LastPasses.one_left (h : LastPasses b c s forced incrementals)
    (ht : LastThinned b c s forced incrementals) (hb : b.night.Sound)
    (hunforced : b.night.unforced = []) (hallowed : b.night.settings.delayForcedFulls = true)
    (hexceeds : s.night.media.capacity < s.night.totals.size)
    (hfull : ∀ id ∈ s.night.scheduled, (s.night.plan id).isFull = true)
    (hne : s.night.scheduled ≠ []) : ∃ id, s.night.scheduled = [id] ∧ b.night.Kept id := by
  have hnext := h.insisted.ends.resolve_left (Nat.not_le.mpr (h.dropped.exceeds hexceeds))
  have hstay := not_mayYield (by rw [ht.insisted.unforced, hunforced]; rfl) hnext
  have hc := ht.insisted.sound hb
  have hs := ht.dropped.sound hc
  have hkept : ∀ id ∈ s.night.scheduled, c.night.Kept id := by
    intro id hid
    have hp := ht.dropped.scheduled (hs.mem_scheduled.mp hid)
    have hheld := ht.dropped.held_of_mem_fulls (List.mem_filter.mpr ⟨hid, hfull id hid⟩)
    have hcfull : (c.night.plan id).isFull = true :=
      (hheld.keeps (f := DiskPlan.isFull) fun _ _ => DiskPlan.isFull_fixMedia).symm.trans
        (hfull id hid)
    by_contra hnot
    exact hstay id (hc.mem_scheduled.mpr hp)
      ⟨hcfull, fun _ => ⟨ht.insisted.settings ▸ hallowed, hnot⟩⟩
  obtain ⟨id, rest, hsplit⟩ := List.exists_cons_of_ne_nil hne
  have hnodup := hs.nodup_scheduled
  rw [hsplit] at hkept hnodup ⊢
  have hid := hkept id List.mem_cons_self
  have hrest : rest = [] := by
    refine List.eq_nil_iff_forall_not_mem.mpr fun j hj => ?_
    obtain rfl := FirstBest.unique (hkept j (List.mem_cons_of_mem _ hj)) hid
    exact (List.nodup_cons.mp hnodup).1 hj
  exact ⟨id, by rw [hrest], h.kept_before ht hid⟩

/-- Full dumps that are left on a schedule that does not fit take as much as when they were first
scheduled. -/
theorem Thinned.exceeds_taken (h : Thinned ⟨n, log⟩ images s) (hs : s.night.Orderly)
    (hexceeds : s.night.media.capacity < s.night.totals.size)
    (hall : s.night.scheduled = s.night.fulls) :
    n.media.capacity < n.taken s.night.scheduled := by
  have hmedia : s.night.media = n.media := h.media
  have hcosts : s.night.scheduled.map (fun id => n.media.dumpCost (n.plan id).dumpMediaSize) =
      s.night.scheduled.map fun id => n.media.dumpCost (s.night.plan id).dumpMediaSize := by
    refine List.map_congr_left fun id hid => ?_
    rw [(h.held_of_mem_fulls (hall ▸ hid)).keeps (f := DiskPlan.dumpMediaSize)
      fun _ _ => DiskPlan.dumpMediaSize_fixMedia]
  have hsize := hs.exact.size
  rw [hmedia] at hexceeds hsize
  rw [Night.taken, hcosts]
  omega

/-- The full dump that is kept in any case is that which was the first choice from the start. -/
theorem Thinned.firstBest_forcedWithin (h : Thinned ⟨n, log⟩ images s)
    (hforced : s.night.fulls = n.forcedWithin) (hkept : s.night.Kept id) :
    FirstBest (fun i j => (n.plan i).Dearer (n.plan j)) n.forcedWithin id := by
  have hbest : FirstBest (fun i j => (n.plan i).Dearer (n.plan j))
      (s.night.fulls.filter fun _ => true) id := by
    refine hkept.filter rfl fun j hj _ => ⟨?_, ?_⟩
    · exact ((h.held_of_mem_fulls hj).dearer (h.held_of_mem_fulls hkept.mem)).symm
    · exact ((h.held_of_mem_fulls hkept.mem).dearer (h.held_of_mem_fulls hj)).symm
  rwa [List.filter_true, hforced] at hbest

/-- What is left on a schedule that does not fit must stay, and takes too much. -/
theorem Passes.must_stay (h : Passes n t b c s fulls forced incrementals)
    (ht : AllThinned n t b c s fulls forced incrementals) (hn : n.Orderly)
    (hs : s.night.Orderly) (hexceeds : s.night.media.capacity < s.night.totals.size)
    (hfull : ∀ id ∈ s.night.scheduled, (s.night.plan id).isFull = true)
    (hne : s.night.scheduled ≠ []) :
    ∃ ids, n.MustStay ids ∧ n.media.capacity < n.taken ids := by
  have hfirst := ht.oversize.trans ht.yielded
  have hlast := ht.insisted.trans ht.dropped
  have hb : b.night.Sound := hfirst.sound hn.sound
  have hunforced : b.night.unforced = [] := unforced_eq_nil hb
    (h.yielded.ends.resolve_left (Nat.not_le.mpr (h.insisted.exceeds (h.dropped.exceeds hexceeds))))
  have hforced := ht.fulls_left h.oversize hunforced
  have hall : s.night.scheduled = s.night.fulls := (List.filter_eq_self.mpr hfull).symm
  have htaken := (hfirst.trans hlast).exceeds_taken hs hexceeds hall
  cases hallowed : n.settings.delayForcedFulls with
  | true =>
    have hsettings : b.night.settings = n.settings := hfirst.settings
    obtain ⟨id, hone, hkept⟩ := h.one_left ht.toLastThinned hb hunforced
      (hsettings ▸ hallowed) hexceeds hfull hne
    refine ⟨[id], ?_, hone ▸ htaken⟩
    rw [Night.MustStay, if_pos hallowed]
    exact ⟨id, rfl, hfirst.firstBest_forcedWithin hforced hkept⟩
  | false =>
    refine ⟨n.forcedWithin, by simp [Night.MustStay, hallowed], Nat.lt_of_lt_of_le htaken ?_⟩
    have hsub : s.night.scheduled.Sublist n.forcedWithin := by
      rw [hall, hlast.fulls, hforced]
      exact List.filter_sublist
    exact Nat.add_le_add_left (totalSize_sublist (hsub.map _)) _

/-! ## Nothing left -/

/-- Media for which nothing is scheduled take what an empty tape takes. -/
theorem size_of_empty (hn : n.Orderly) (hempty : n.scheduled = []) :
    n.totals.size = n.media.emptyTape := by
  have hexact := hn.exact.size
  rw [hempty] at hexact
  exact hexact

/-- A dump that was dropped exceeds what one run may have of its disk, or what the media hold even
alone. -/
def Hopeless (n : Night) (image : BeforeImage) : Prop :=
  n.media.ceiling (n.plan image.record).disk < image.mediaSize ∨
    n.media.capacity < n.media.emptyTape + n.media.dumpCost image.mediaSize

/-- Of an empty schedule only what is hopeless cannot be put back. -/
theorem hopeless_of_refused (hl : Logged a n log) (he : Explained a n log)
    (hempty : n.scheduled = []) (hi : image ∈ log) (hdeleted : image.deleted = true)
    (hrefused : Refused n image) : Hopeless a image := by
  have hnow := (hl.faithful image hi).now
  rw [hdeleted] at hnow
  have hnot := hrefused _ (undoneSize?_of_dropped hdeleted hnow.2)
  rw [Fits, size_of_empty hl.orderly hempty, hl.media, (he _ (hl.origin image hi)).1.disk] at hnot
  unfold Hopeless
  omega

end Delaying

/-- When fitting fails, every change of the passes stands. -/
theorem Fitted.given_up {r : Shrinking} (ha : a.Orderly) (h : Fitted a r f)
    (hunfit : a.scheduled ≠ [] ∧ f.scheduled = [] ∨ f.media.capacity < f.totals.size) :
    ∃ s what, delayDumps ⟨a, []⟩ = .ok () s ∧ r.night = s.night.reckon what ∧
      ∀ image ∈ s.log, Refused s.night image := by
  obtain ⟨t, hchanged, ht⟩ := h.changed
  obtain ⟨_, s, hdelayed, hreinstated⟩ := ok_of_bind hchanged
  have hmake : Leads delayDumps ⟨a, []⟩ _ never := leads_passes_thinned ha
  obtain ⟨_, _, _, _, _, _, -, hthinned⟩ := hmake.reached hdelayed
  have hl : Logged a s.night s.log :=
    Logged.changes (s := ⟨a, []⟩) (.refl ha) hthinned.thinned.changes
  have hreplay : Leads (reinstateFrom [] s.log) s _ never := leads_reinstateFrom_refused hl
  rcases hreplay.reached (ok_of_get hreinstated) with ⟨hne, hsize⟩ | ⟨⟨what, hsame⟩, hrefused⟩
  · rw [ht] at hne hsize
    rcases hunfit with ⟨-, hempty⟩ | hbig
    · exact absurd ((h.reported.scheduled_eq_nil (h.logged ha).orderly.sound).mp hempty) hne
    · rw [h.reported.media, h.reported.totals] at hbig
      omega
  · exact ⟨s, what, hdelayed, ht.symm.trans hsame, hrefused⟩

/-- **Giving up.** Fitting fails only if full dumps that must stay take more than the media hold, or
if in the end nothing is on the schedule and none of the dumps that were dropped could be. -/
theorem fitting_fails_only_when_needed (ha : a.Orderly)
    (hfit : fit a = .error (.unfittable why) f) :
    (∃ ids, a.MustStay ids ∧ a.media.capacity < a.taken ids) ∨
      f.scheduled = [] ∧ (a.scheduled = [] ∧ a.media.capacity < a.media.emptyTape ∨
        ∃ s, delayDumps ⟨a, []⟩ = .ok () s ∧
          (∀ id ∈ a.scheduled, ∃ image ∈ s.log, image.record = id ∧ image.deleted = true ∧
            image.mediaSize = (f.plan id).dumpMediaSize) ∧
          ∀ image ∈ s.log, image.deleted = true → Hopeless a image) := by
  obtain ⟨r, g, hfitted, -⟩ := exists_fitted ha
  obtain ⟨rfl, hunfit⟩ := hfitted.unfit hfit
  obtain ⟨s, what, hdelayed, hsame, hrefused⟩ := hfitted.given_up ha hunfit
  have hmake : Leads delayDumps ⟨a, []⟩ _ never := leads_passes_thinned ha
  obtain ⟨t, b, c, fulls, forced, incrementals, hpasses, hthinned⟩ := hmake.reached hdelayed
  have hrun := hthinned.thinned.changes
  have hl := Logged.changes (s := ⟨a, []⟩) (.refl ha) hrun
  have he := Explained.changes (s := ⟨a, []⟩) (.refl ha) .refl hrun
  have hreported := hfitted.reported
  rw [hsame] at hreported
  have hmedia : f.media = s.night.media := hreported.media
  have hsize : f.totals.size = s.night.totals.size := by
    rw [hreported.totals]
    rfl
  have hgone : f.scheduled = [] ↔ s.night.scheduled = [] :=
    hreported.scheduled_eq_nil (hl.orderly.sound.reckon what)
  by_cases hempty : s.night.scheduled = []
  · refine Or.inr ⟨hgone.mpr hempty, ?_⟩
    by_cases hnothing : a.scheduled = []
    · refine Or.inl ⟨hnothing, ?_⟩
      have hbig := hunfit.resolve_left fun h => h.1 hnothing
      rwa [hmedia, hsize, size_of_empty hl.orderly hempty, hl.media] at hbig
    · refine Or.inr ⟨s, hdelayed, fun id hid => ?_, fun image hi hdeleted =>
        hopeless_of_refused hl he hempty hi hdeleted (hrefused image hi)⟩
      rcases hl.each (ha.sound.mem_scheduled.mp hid) with hp | ⟨-, -, image, hi, rfl, hdeleted⟩
      · have hmem := hl.orderly.sound.mem_scheduled.mpr hp
        rw [hempty] at hmem
        cases hmem
      · refine ⟨image, hi, rfl, hdeleted, ?_⟩
        rw [hreported.plan, plan_reckon, (hl.faithful image hi).dropped_size hdeleted]
  · have hbig := hunfit.resolve_left fun h => hempty (hgone.mp h.2)
    rw [hmedia, hsize] at hbig
    have hroom : Leads delayDumps ⟨a, []⟩ _ never := leads_delayDumps (.refl ha)
    obtain ⟨_, hmade⟩ := hroom.reached hdelayed
    exact Or.inl (hpasses.must_stay hthinned ha hl.orderly hbig (fun id hid =>
      hmade.room.resolve_left (Nat.not_le.mpr hbig) (hl.orderly.sound.mem_scheduled.mp hid)) hempty)

/-- A tape that holds less than the smallest of its dumps. -/
def tiny : Night := threeDumps 100 1000 30 950 450

set_option synthInstance.maxSize 1000 in
theorem leads_fit_tiny : Leads fit tiny (fun _ _ => False)
    (fun e _ => e = .unfittable .nothingFits) := by
  decide +kernel

/-- Fitting gives up the tiny tape: two dumps are too big for it, and the third one, which fell back
first, does not fit on it either. -/
theorem tiny_given_up : tiny.Orderly ∧ ∃ f, fit tiny = .error (.unfittable .nothingFits) f ∧
    f.scheduled = [] ∧ ∃ s, delayDumps ⟨tiny, []⟩ = .ok () s ∧
      ∀ image ∈ s.log, image.deleted = true → Hopeless tiny image := by
  have horderly : tiny.Orderly := threeDumps_orderly ..
  have hnone : ¬∃ ids, tiny.MustStay ids ∧ tiny.media.capacity < tiny.taken ids := by
    rintro ⟨_, ⟨_, -, hbest⟩, -⟩
    cases hbest.mem
  rcases leads_fit_tiny.outcome with ⟨_, _, -, hnever⟩ | ⟨_, f, hfit, rfl⟩
  · exact hnever.elim
  · obtain ⟨hempty, hleft⟩ := (fitting_fails_only_when_needed horderly hfit).resolve_left hnone
    rcases hleft with ⟨hnothing, -⟩ | ⟨s, hdelayed, -, hhopeless⟩
    · exact absurd hnothing (by decide)
    · exact ⟨horderly, f, hfit, hempty, s, hdelayed, hhopeless⟩

end NightlyBackup
