import NightlyBackup.Proofs.Reporting
import NightlyBackup.Proofs.WholeNight

/-!
Why a change stands. The log is gone through once, and a change that could not be undone then is
not tried again. The schedule grows with every dump that is put back, so that what had no room
before has none later; but a full dump that is smaller than its own fallback makes the schedule
shrink when it is put back. By as much as that, and no more, a change that stands may be short of
room that there is in the end.
-/

namespace NightlyBackup

open Night Planning Delaying

variable {a b n k f : Night} {id total : Nat} {p : DiskPlan} {log older kept : List BeforeImage}
  {image i : BeforeImage}

/-! ## The room that comes back -/

def DiskPlan.fallbackSize (p : DiskPlan) : Nat := (p.degraded.bind p.mediaSize?).getD 0

/-- What a dump that was put back since `b` takes less than its fallback. -/
def regained (b : Night) (id : Nat) (p : DiskPlan) : Nat :=
  if p.dump = (b.plan id).dump then 0 else p.fallbackSize - p.dumpMediaSize

/-- What all dumps that were put back since `b` take less than their fallbacks. -/
def Night.leeway (b n : Night) : Nat := sumBy (regained b) n

/-- Where no fallback is bigger than the dump that was put back for it, no room has come back. -/
theorem leeway_eq_zero (h : ∀ id ∈ n.scheduled, (n.plan id).dump ≠ (b.plan id).dump →
    (n.plan id).fallbackSize ≤ (n.plan id).dumpMediaSize) : b.leeway n = 0 := by
  have hzero : ∀ id ∈ n.scheduled, regained b id (n.plan id) = 0 := by
    intro id hid
    unfold regained
    split
    · rfl
    · rename_i hne
      have := h id hid hne
      omega
  rw [Night.leeway, sumBy, List.map_congr_left hzero]
  induction n.scheduled with
  | nil => rfl
  | cons id ids ih => rw [List.map_cons, totalSize_cons, ih]

/-! ## Going through the log -/

/-- A change cannot be undone, or the schedule would be too big by all but the leeway, or the dump
too big for one run. -/
def Stuck (b n : Night) (image : BeforeImage) : Prop :=
  ∀ total, undoneSize? n image = some total →
    n.media.capacity < total + b.leeway n ∨
      n.media.ceiling (n.plan image.record).disk < image.mediaSize

/-- The log of `n` while it is gone through, where `b` is the night in which this began: a record
that fell back had its fallback in `b`. -/
structure Replaying (a b n : Night) (log : List BeforeImage) : Prop where
  logged : Logged a n log
  explained : Explained a n log
  fallback : ∀ image ∈ log, image.deleted = false →
    (b.plan image.record).dump = (a.plan image.record).degraded

namespace Replaying

/-- What fell back in `b` has the fallback that it had in `a`. -/
theorem begin (hl : Logged a b log) (he : Explained a b log) : Replaying a b b log := by
  refine ⟨hl, he, fun image hi hd => ?_⟩
  obtain ⟨-, hfate⟩ := he image.record (hl.origin image hi)
  obtain ⟨-, slot, hdegraded, hdump⟩ := hfate.fell (mem_imagesOf.mpr ⟨hi, rfl⟩) hd
  exact hdump.trans hdegraded.symm

/-- A record that has fallen back has the fallback as its dump, then and now. -/
theorem fallen (h : Replaying a b n log) (hm : image ∈ log) (hd : image.deleted = false) :
    (n.plan image.record).dump = (n.plan image.record).degraded ∧
      (n.plan image.record).dump = (b.plan image.record).dump := by
  obtain ⟨hsame, hfate⟩ := h.explained image.record (h.logged.origin image hm)
  obtain ⟨-, slot, hdegraded, hdump⟩ := hfate.fell (mem_imagesOf.mpr ⟨hm, rfl⟩) hd
  rw [hsame.degraded, h.fallback image hm hd, hdegraded]
  exact ⟨hdump, hdump⟩

/-- To put a dump back takes room, or no more room comes back than the leeway counts. -/
theorem leeway_undone (h : Replaying a b n log) (hm : image ∈ log)
    (htotal : undoneSize? n image = some total) (hk : Undone image n total k) :
    n.totals.size + b.leeway n ≤ k.totals.size + b.leeway k := by
  obtain ⟨-, hsize, tot, hb⟩ := hk
  have hi := h.logged.faithful image hm
  have hn := h.logged.orderly
  have hsum := sumBy_becomes (hn.sound.withTotals tot) hb (regained b)
  have hsame : sumBy (regained b) (n.withTotals tot) = b.leeway n := rfl
  have hleeway : sumBy (regained b) k = b.leeway k := rfl
  rw [hsame, hleeway, plan_withTotals, place_withTotals] at hsum
  rcases undoneSize?_eq hi htotal with ⟨-, hp, rfl⟩ | ⟨hd, hp, rfl⟩
  · simp only [share, hp] at hsum
    simp at hsum
    omega
  · obtain ⟨hdeg, hdump⟩ := h.fallen hm hd
    have hnow := hi.now
    rw [hd] at hnow
    have hlevel := hi.level
    rw [hnow.1] at hlevel
    -- the full dump is at another level than the fallback that it replaces
    have hback : (putBack image (n.plan image.record)).dump ≠ (b.plan image.record).dump := by
      intro e
      have hslot : (n.plan image.record).degraded = some image.slot :=
        hdeg.symm.trans (hdump.trans e.symm)
      obtain ⟨-, level, hl, hpos⟩ := hi.fallback hslot
      cases hl.symm.trans hlevel
      exact Nat.lt_irrefl 0 hpos
    have hfallback : (putBack image (n.plan image.record)).fallbackSize =
        (n.plan image.record).dumpMediaSize := by
      rw [DiskPlan.dumpMediaSize, hdeg]
      rfl
    have hregained : regained b image.record (putBack image (n.plan image.record)) =
        (n.plan image.record).dumpMediaSize - image.mediaSize := by
      rw [regained, if_neg hback, hfallback, hi.putBack_size]
    simp only [share, hp, if_true, hregained] at hsum
    rw [regained, if_pos hdump] at hsum
    have hclip := (hn.exact.no_clip hn.sound hp).1
    unfold Media.dumpCost at hclip
    omega

/-- Of two images of one record in the log only the newer can be undone. -/
theorem apart (h : Replaying a b n (kept.reverse ++ image :: older)) (hi : i ∈ kept)
    (htotal : undoneSize? n image = some total) : i.record ≠ image.record := by
  intro e
  have hm : image ∈ kept.reverse ++ image :: older := by simp
  obtain ⟨-, hfate⟩ := h.explained image.record (h.logged.origin image hm)
  rw [imagesOf_append, imagesOf_cons_self rfl] at hfate
  have hnone := hfate.newest (undone_where (h.logged.faithful image hm) htotal)
  have hmem : i ∈ imagesOf image.record kept.reverse :=
    mem_imagesOf.mpr ⟨List.mem_reverse.mpr hi, e⟩
  rw [hnone] at hmem
  cases hmem

/-- A change that stands is stuck still when an older one has been undone. -/
theorem stuck_undone (h : Replaying a b n (kept.reverse ++ image :: older)) (hi : i ∈ kept)
    (hstuck : Stuck b n i) (htotal : undoneSize? n image = some total)
    (hk : Undone image n total k) : Stuck b k i := by
  have hne := h.apart hi htotal
  have hroom := h.leeway_undone (by simp) htotal hk
  obtain ⟨horderly, -, tot, hb⟩ := hk
  have hplan : k.plan i.record = n.plan i.record := hb.only.plan hne
  have hplace : k.place i.record = n.place i.record := hb.only.place hne
  have hmedia : k.media = n.media := hb.alike.media
  have hfaithful := h.logged.faithful i (by simp [hi])
  intro total' htotal'
  rw [hmedia, hplan]
  rw [← hplan, ← hplace] at hfaithful
  rcases undoneSize?_eq hfaithful htotal' with ⟨hd, hp, rfl⟩ | ⟨hd, hp, rfl⟩
  · rw [hplace] at hp
    refine (hstuck _ (undoneSize?_of_dropped hd hp)).imp_left fun hbig => ?_
    rw [hmedia]
    omega
  · have hkeep := (horderly.exact.no_clip horderly.sound hp).1
    rw [hplan] at hkeep ⊢
    rw [hplace] at hp
    have hclip := (h.logged.orderly.exact.no_clip h.logged.orderly.sound hp).1
    refine (hstuck _ (undoneSize?_of_softly hd hp)).imp_left fun hbig => ?_
    unfold Media.dumpCost at hclip hkeep
    omega

theorem undone (h : Replaying a b n (kept.reverse ++ image :: older))
    (htotal : undoneSize? n image = some total) (hk : Undone image n total k) :
    Replaying a b k (kept.reverse ++ older) := by
  have hm : image ∈ kept.reverse ++ image :: older := by simp
  refine ⟨h.logged.undone htotal hk,
    h.explained.undone (h.logged.faithful image hm) htotal hk, fun i hi => h.fallback i ?_⟩
  simp only [List.mem_append, List.mem_cons] at hi ⊢
  exact hi.imp_right Or.inr

end Replaying

/-- When the log has been gone through, every change that stands is stuck. -/
theorem Delaying.leads_reinstateFrom_stuck (h : Replaying a b n (kept.reverse ++ older))
    (hkept : ∀ i ∈ kept, Stuck b n i) :
    Leads (reinstateFrom kept older) ⟨n, log⟩ (fun stands t =>
      Replaying a b t.night stands.reverse ∧ ∀ i ∈ stands, Stuck b t.night i) never := by
  have hreplay : Leads (reinstateFrom kept older) ⟨n, log⟩ _ never := leads_reinstateFrom_keeps
    (I := fun m stands rest => Replaying a b m (stands.reverse ++ rest) ∧
      ∀ i ∈ stands, Stuck b m i) ?undone ?stands ?reckon h.logged ⟨h, hkept⟩
  · refine hreplay.imp fun stands t ⟨_, hreplaying, hstuck⟩ => ⟨?_, hstuck⟩
    rwa [List.append_nil] at hreplaying
  case undone =>
    rintro m k kept older image total - - htotal - hk ⟨h, hkept⟩
    exact ⟨h.undone htotal hk, fun i hi => h.stuck_undone hi (hkept i hi) htotal hk⟩
  case stands =>
    rintro m kept older image - hnever ⟨h, hkept⟩
    have hstuck : Stuck b m image := by
      intro total htotal
      by_cases hsize : total ≤ m.media.capacity
      · exact Or.inr (Nat.lt_of_not_le fun hceiling => hnever total htotal ⟨hsize, hceiling⟩)
      · exact Or.inl (by omega)
    refine ⟨?_, List.forall_mem_cons.mpr ⟨hstuck, hkept⟩⟩
    rwa [List.reverse_cons, List.append_assoc]
  case reckon =>
    rintro m kept older what ⟨h, hkept⟩
    exact ⟨⟨h.logged.reckoned what, h.explained, h.fallback⟩, hkept⟩

/-! ## What stands -/

/-- No change that stands since `a` could be undone in `f`, where `room` is put aside: the
schedule would be too big for the media, or the dump for one run. -/
structure Night.Settled (a f : Night) (room : Nat) : Prop where
  fellBack : ∀ id ∈ f.scheduled, (f.plan id).dump ≠ (a.plan id).dump →
    f.media.capacity <
        f.totals.size - (f.plan id).dumpMediaSize + (a.plan id).dumpMediaSize + room ∨
      f.media.ceiling (f.plan id).disk < (a.plan id).dumpMediaSize
  dropped : ∀ id ∈ a.scheduled, id ∉ f.scheduled →
    f.media.capacity < f.totals.size + f.media.dumpCost (f.plan id).dumpMediaSize + room ∨
      f.media.ceiling (f.plan id).disk < (f.plan id).dumpMediaSize

namespace Replaying

/-- A log of which every change is stuck leaves nothing to undo. -/
theorem settled (h : Replaying a b n log) (hsound : a.Sound)
    (hstuck : ∀ i ∈ log, Stuck b n i) : a.Settled n (b.leeway n) := by
  have hn := h.logged.orderly
  refine ⟨fun id hid hne => ?_, fun id hid hgone => ?_⟩
  · have hp := hn.sound.mem_scheduled.mp hid
    have ha : a.place id = some .scheduled := by
      by_contra ha
      exact ha ((h.logged.others ha).1.symm.trans hp)
    obtain ⟨hsame, hfate⟩ := h.explained id ha
    rw [hp] at hfate
    generalize himages : imagesOf id log = images at hfate
    cases hfate with
    | stays dump => exact absurd dump hne
    | fellBack fell softly =>
      rename_i soft
      obtain ⟨hi, rfl⟩ : soft ∈ log ∧ soft.record = id := by
        rw [← mem_imagesOf, himages]
        exact List.mem_singleton_self soft
      have hsize : (a.plan soft.record).dumpMediaSize = soft.mediaSize := by
        rw [DiskPlan.dumpMediaSize, softly.dump, Option.bind_some, ← hsame.mediaSize,
          (h.logged.faithful soft hi).size]
        rfl
      have hclip := (hn.exact.no_clip hn.sound hp).1
      have := hstuck soft hi _ (undoneSize?_of_softly softly.deleted hp)
      unfold Media.dumpCost at hclip
      rw [hsize]
      omega
  · rcases h.logged.each (hsound.mem_scheduled.mp hid) with hp | ⟨hp, -, hard, hi, rfl, hd⟩
    · exact absurd (hn.sound.mem_scheduled.mpr hp) hgone
    · rw [← (h.logged.faithful hard hi).dropped_size hd]
      exact hstuck hard hi _ (undoneSize?_of_dropped hd hp)

end Replaying

/-- Reports do not change what could be undone. -/
theorem Reported.settled {room : Nat} (h : Reported log n f) (hn : n.Sound)
    (hsettled : a.Settled n room) : a.Settled f room := by
  have hmem : ∀ {id}, id ∈ f.scheduled ↔ id ∈ n.scheduled := by
    intro id
    rw [h.sound.mem_scheduled, hn.mem_scheduled, h.scheduled_iff]
  constructor
  · intro id hid hne
    rw [h.plan] at hne ⊢
    rw [h.media, h.totals]
    exact hsettled.fellBack id (hmem.mp hid) hne
  · intro id hid hgone
    rw [h.plan, h.media, h.totals]
    exact hsettled.dropped id hid fun hm => hgone (hmem.mpr hm)

theorem Reported.leeway (h : Reported log n f) (hn : n.Sound) : b.leeway f = b.leeway n :=
  sumBy_congr hn h.sound (fun _ => h.scheduled_iff) fun id _ =>
    congrArg (regained b id) (h.plan id)

/-- **Nothing stands without need.** When the schedule has been made to fit, and nothing overflowed,
no change that stands could be undone, where the room is put aside that came back since the log was
gone through; it is none if every dump that was put back is as big as its fallback. -/
theorem fitting_settled (ha : a.Orderly) (hfit : withinWords Planning.fit a = .ok () f) :
    ∃ s, delayDumps ⟨a, []⟩ = .ok () s ∧ a.Settled f (s.night.leeway f) ∧
      ((∀ id ∈ f.scheduled, (f.plan id).dump ≠ (s.night.plan id).dump →
        (f.plan id).fallbackSize ≤ (f.plan id).dumpMediaSize) → a.Settled f 0) := by
  obtain ⟨r, h, -⟩ := (Planning.leads_fit ha).ok (withinWords_eq_ok.mp hfit).1
  obtain ⟨t, hchanged, ht⟩ := h.changed
  obtain ⟨_, s, hdelayed, hreinstated⟩ := ok_of_bind hchanged
  have hmake : Leads delayDumps ⟨a, []⟩ _ never := leads_delayDumps (.refl ha)
  obtain ⟨u, hu⟩ := hmake.reached hdelayed
  have hrun := (hu.begun.trans hu.ended).changes
  have hbegin : Replaying a s.night s.night s.log :=
    .begin (Logged.changes (s := ⟨a, []⟩) (.refl ha) hrun)
      (Explained.changes (s := ⟨a, []⟩) (.refl ha) .refl hrun)
  have hreplay : Leads (reinstateFrom [] s.log) s _ never :=
    leads_reinstateFrom_stuck hbegin (by simp)
  obtain ⟨hreplayed, hstuck⟩ := hreplay.reached (ok_of_get hreinstated)
  rw [List.reverse_reverse, ht] at hreplayed
  rw [ht] at hstuck
  have hsound := (h.logged ha).orderly.sound
  have hsettled : a.Settled f (s.night.leeway f) := by
    rw [h.reported.leeway hsound]
    exact h.reported.settled hsound
      (hreplayed.settled ha.sound fun i hi => hstuck i (List.mem_reverse.mpr hi))
  refine ⟨s, hdelayed, hsettled, fun hback => ?_⟩
  rwa [leeway_eq_zero hback] at hsettled

/-- On the crowded tape the fallback and the drop are both needed: one full dump would be too
much, and so would the other incremental. -/
theorem fitting_settled_of_crowded : crowded.Orderly ∧
    ∃ f, withinWords Planning.fit crowded = .ok () f ∧ f.scheduled = [1, 0] ∧
    (f.plan 0).dump ≠ (crowded.plan 0).dump ∧ crowded.Settled f 0 := by
  have horderly : crowded.Orderly := threeDumps_orderly ..
  obtain ⟨_, f, hrun, -, hd0, -, -, -, hscheduled, hg0, hg1, hwords⟩ :=
    leads_fit_crowded.exists_ok
  have hfit := withinWords_eq_ok.mpr ⟨hrun, hwords⟩
  obtain ⟨s, -, -, hsettled⟩ := fitting_settled horderly hfit
  refine ⟨horderly, f, hfit, hscheduled, ?_, hsettled fun id hid _ => ?_⟩
  · rw [hd0]
    decide
  · rw [hscheduled] at hid
    obtain rfl | rfl : id = 1 ∨ id = 0 := by simpa using hid
    · rw [DiskPlan.fallbackSize, hg1]
      exact Nat.zero_le _
    · exact Nat.le_of_eq (by rw [DiskPlan.fallbackSize, hg0, DiskPlan.dumpMediaSize, hd0])

def lopsided : Night := threeDumps 1900 1000 1500 400 400

set_option synthInstance.maxSize 1000 in
theorem leads_fit_lopsided : Leads Planning.fit lopsided (fun _ f => f.scheduled = [0] ∧
    f.totals.size + f.media.dumpCost (f.plan 1).dumpMediaSize ≤ f.media.capacity ∧
    (f.plan 1).dumpMediaSize ≤ f.media.ceiling (f.plan 1).disk ∧
    f.totals.overflow = none) never := by
  have hoversize : lopsided.scheduled.forM delayIfOversize ⟨lopsided, []⟩ =
    .ok () ⟨lopsided, []⟩ := rfl
  have hyield : yieldingFulls lopsided = [0] := List.mergeSort_singleton ..
  simp only [Planning.fit, delayDumps, leads_bind, leads_get, leads_withLog, leads_getNight,
    leads_iff_of_ok hoversize, hyield]
  decide +kernel

/-- The full dump of the lopsided tape is put back after the drops of both others were found to
stand, and then there is room for one of them. -/
theorem lopsided_not_settled : lopsided.Orderly ∧
    ∃ f, withinWords Planning.fit lopsided = .ok () f ∧ ¬lopsided.Settled f 0 := by
  obtain ⟨_, f, hrun, hscheduled, hsize, hceiling, hwords⟩ := leads_fit_lopsided.exists_ok
  refine ⟨threeDumps_orderly .., f, withinWords_eq_ok.mpr ⟨hrun, hwords⟩, fun hsettled => ?_⟩
  have hgone : 1 ∉ f.scheduled := by simp [hscheduled]
  have := hsettled.dropped 1 (by decide) hgone
  omega

end NightlyBackup
