import NightlyBackup.Night.Fit
import NightlyBackup.Proofs.Scheduling

/-!
Putting off one dump, and undoing it. A dump that is put off leaves the schedule or falls back
to its incremental, and the log gets an image of what it was; the image says enough to put the
dump back as if nothing had happened. The accounts stay exact in both directions.
-/

namespace NightlyBackup

open Night

namespace Delaying

open Planning (leads_setPlan leads_remove leads_dumpMediaSize leads_insertScheduled
  leads_resortScheduled dumpMediaSize_ok)

variable {s : Shrinking} {n m k : Night} {id slot d : Nat} {p : DiskPlan}
  {fail : Fault → Night → Prop} {failed : Fault → Shrinking → Prop}

@[simp]
theorem leads_lift {α : Type} {act : Planning α} {post : α → Shrinking → Prop} :
    Leads (lift act) s post failed ↔ Leads act s.night
      (fun a n => post a { s with night := n }) (fun e n => failed e { s with night := n }) := by
  simp only [Leads, lift]
  cases act s.night <;> rfl

@[simp]
theorem leads_getNight {post : Night → Shrinking → Prop} :
    Leads getNight s post failed ↔ post s.night s := by
  simp only [getNight, leads_bind, leads_get, leads_pure]

/-! ## Putting off -/

def uncounted (n : Night) (p : DiskPlan) : Totals :=
  (uncount p.dumpMediaSize p.isFull n).totals

def fallenBack (p : DiskPlan) (d : Nat) : DiskPlan :=
  DiskPlan.fixMedia { p with dump := some d } d

theorem dumpMediaSize_fallenBack (p : DiskPlan) (d : Nat) :
    (fallenBack p d).dumpMediaSize = (p.mediaSize? d).getD 0 := by
  rw [fallenBack, DiskPlan.dumpMediaSize_fixMedia]
  rfl

theorem leads_fallBack {post : Unit → Night → Prop} (hb : Becomes id p (some .scheduled) n m)
    (hp : p.Planned) (hd : p.degraded = some d)
    (hs : ∀ {j}, j ≠ id → n.place j = some .scheduled → (n.plan j).Planned)
    (next : ∀ k t, t.size = n.totals.size + n.media.dumpCost (fallenBack p d).dumpMediaSize →
      t.fullSize = n.totals.fullSize →
      Becomes id (fallenBack p d) (some .scheduled) (n.withTotals t) k → post () k) :
    Leads (fallBack id d) m post fail := by
  simp only [fallBack, leads_bind]
  refine leads_setPlan hb (fun _ => ⟨rfl, rfl⟩) fun k hk => ?_
  refine leads_dumpMediaSize hk rfl fun k hk => ?_
  rw [leads_modify]
  refine leads_resortScheduled (hk.withTotals _) (hp.switch hd) hs fun l hl => ?_
  refine next l _ ?_ ?_ hl
  · rw [dumpMediaSize_fallenBack, ← hk.alike.media, ← hk.alike.totals.size]
    rfl
  · exact hk.alike.totals.fullSize

theorem leads_drop {post : Unit → Night → Prop} (hb : Becomes id p (some .scheduled) n m)
    (reason : String)
    (next : ∀ k, Becomes id { p with fault := some reason } none n k → post () k) :
    Leads (drop id reason) m post fail := by
  simp only [drop, leads_bind]
  exact leads_remove hb fun k hk => leads_setPlan hk (fun _ => ⟨rfl, rfl⟩) next

def imageOf (n : Night) (id : Nat) (delete : Bool) (reason : String) : BeforeImage where
  record := id
  deleted := delete
  slot := (n.plan id).dump.getD 0
  level := (n.plan id).dumpLevel?.getD 0
  nativeSize := ((n.plan id).nativeSize? ((n.plan id).dump.getD 0)).getD 0
  mediaSize := (n.plan id).dumpMediaSize
  message := message n id ((n.plan id).dumpLevel?.getD 0) reason

/-- The plan and the place of a record whose dump was put off. -/
def PutOff (p : DiskPlan) (delete : Bool) (reason : String) (p' : DiskPlan)
    (q' : Option QueueName) : Prop :=
  if delete then p' = { p with fault := some reason } ∧ q' = none
  else (∃ d, p.degraded = some d ∧ p' = fallenBack p d) ∧ q' = some .scheduled

def CanFallBack (p : DiskPlan) : Prop := p.isFull = true ∧ p.degraded.isSome

theorem isFull_iff_level (hp : p.Planned) : p.isFull = decide (p.dumpLevel?.getD 0 = 0) := by
  obtain ⟨slot, hd, hs⟩ := hp.sized
  obtain ⟨level, hl⟩ := Option.isSome_iff_exists.mp (DiskPlan.levelAt?_isSome hs)
  rw [DiskPlan.isFull_eq_of_dump hd hl, DiskPlan.dumpLevel?_eq, hd]
  simp [hl]

/-- A fallback is not a full dump. -/
theorem isFull_fallenBack (hp : p.Planned) (hd : p.degraded = some d) :
    (fallenBack p d).isFull = false := by
  obtain ⟨level, hl, hpos⟩ := (hp.fallback hd).2
  have h : ({ p with dump := some d } : DiskPlan).isFull = decide (level = 0) :=
    DiskPlan.isFull_eq_of_dump rfl hl
  rw [fallenBack, DiskPlan.isFull_fixMedia, h]
  exact decide_eq_false (Nat.ne_of_gt hpos)

/-- The accounts without a dump that is on the schedule. -/
theorem uncounted_size (hn : n.Orderly) (hp : n.place id = some .scheduled) :
    (uncounted n (n.plan id)).size +
        share (fun p => n.media.dumpCost p.dumpMediaSize) (n.plan id) (n.place id) =
      n.totals.size ∧
    (uncounted n (n.plan id)).fullSize + share fullShare (n.plan id) (n.place id) =
      n.totals.fullSize := by
  obtain ⟨hcost, hfull⟩ := hn.exact.no_clip hn.sound hp
  simp only [uncounted, uncount, Totals.reckon, share, fullShare, hp, if_true]
  refine ⟨by omega, ?_⟩
  split
  · rename_i h
    have := hfull h
    omega
  · rfl

/-- **Putting off.** A scheduled dump is dropped or falls back; the schedule stays in order,
and the log says what was there before. -/
theorem leads_delay {delete : Bool} {reason : String} (hs : s.night.Orderly)
    (hp : s.night.place id = some .scheduled)
    (hf : delete = false → CanFallBack (s.night.plan id)) :
    Leads (delay id delete reason) s (fun _ t =>
      t.log = imageOf s.night id delete reason :: s.log ∧ t.night.Orderly ∧
      ∃ p q tot, Becomes id p q (s.night.withTotals tot) t.night ∧
        PutOff (s.night.plan id) delete reason p q) failed := by
  have hplanned := hs.planned hp
  obtain ⟨slot, hd, -⟩ := hplanned.sized
  obtain ⟨hsize, hfull⟩ := uncounted_size hs hp
  have hb := Becomes.refl (hs.sound.withTotals (uncounted s.night (s.night.plan id)))
    (hs.sound.lt_of_place hp)
  rw [plan_withTotals, place_withTotals, hp] at hb
  simp only [delay, leads_bind, leads_getNight]
  split
  · rename_i hnone
    cases hd.symm.trans hnone
  · rename_i slot' hd'
    cases hd.symm.trans hd'
    simp only [leads_bind, leads_lift, leads_iff_of_ok (dumpMediaSize_ok hplanned),
      leads_getNight, leads_modify]
    have huncount : uncount (s.night.plan id).dumpMediaSize
        (decide ((s.night.plan id).dumpLevel?.getD 0 = 0)) s.night =
          s.night.withTotals (uncounted s.night (s.night.plan id)) := by
      rw [uncounted, isFull_iff_level hplanned]
      rfl
    have himage : imageOf s.night id delete reason =
        { record := id, deleted := delete, slot := slot
          level := (s.night.plan id).dumpLevel?.getD 0
          nativeSize := ((s.night.plan id).nativeSize? slot).getD 0
          mediaSize := (s.night.plan id).dumpMediaSize
          message := message s.night id ((s.night.plan id).dumpLevel?.getD 0) reason } := by
      rw [imageOf, hd]
      rfl
    rw [huncount, ← himage]
    cases delete with
    | true =>
      refine leads_lift.mpr (leads_drop hb reason fun k hk => ⟨rfl, ?_, _, _, _, hk, rfl, rfl⟩)
      exact hs.becomes hk (by simp) hsize hfull
    | false =>
      obtain ⟨hisFull, hsome⟩ := hf rfl
      obtain ⟨d, hdeg⟩ := Option.isSome_iff_exists.mp hsome
      rw [hdeg]
      have hothers : ∀ {j}, j ≠ id →
          (s.night.withTotals (uncounted s.night (s.night.plan id))).place j = some .scheduled →
          ((s.night.withTotals (uncounted s.night (s.night.plan id))).plan j).Planned :=
        fun _ => hs.planned
      refine leads_lift.mpr (leads_fallBack hb hplanned hdeg hothers fun k t ht htf hk => ⟨rfl, ?_,
        _, _, _, hk, ⟨d, hdeg, rfl⟩, rfl⟩)
      rw [totals_withTotals] at ht htf
      refine hs.becomes hk (fun _ => hplanned.switch hdeg) ?_ ?_
      · simp only [share, if_true] at hsize ⊢
        rw [media_withTotals] at ht
        omega
      · rw [htf, hfull, share, if_pos rfl, fullShare, isFull_fallenBack hplanned hdeg]
        rfl

/-- What sizing, counting, falling back and dropping keep is kept when a dump is put off. -/
theorem keeps_delay {I : Night → Prop} {delete : Bool} {reason : String}
    (hsize : Leads (Planning.dumpMediaSize id) s.night (fun _ k => I k) anyhow)
    (hcount : ∀ {m : Night} (t : Totals), I m → I (m.withTotals t))
    (hfall : ∀ {m : Night} (slot : Nat), I m → Leads (fallBack id slot) m (fun _ k => I k) anyhow)
    (hdrop : ∀ {m : Night}, I m → Leads (drop id reason) m (fun _ k => I k) anyhow) :
    Leads (delay id delete reason) s (fun _ t => I t.night) anyhow := by
  simp only [delay, leads_bind, leads_getNight]
  split
  · trivial
  · simp only [leads_bind, leads_lift, leads_getNight, leads_modify]
    apply hsize.imp
    intro size m hm
    split
    · exact leads_lift.mpr (hfall _ (hcount _ hm))
    · exact leads_lift.mpr (hdrop (hcount _ hm))

/-! ## Images -/

/-- What an image says of its record is true, and is all that is needed to put the dump back:
a dropped dump is still the chosen one, and one that fell back was a full dump. -/
structure Faithful (image : BeforeImage) (p : DiskPlan) (q : Option QueueName) : Prop where
  level : p.levelAt? image.slot = some image.level
  size : p.mediaSize? image.slot = some image.mediaSize
  stands : p.StandsAt image.slot
  fallback : ∀ {slot}, p.degraded = some slot →
    p.Sized slot ∧ ∃ level, p.levelAt? slot = some level ∧ 0 < level
  now : if image.deleted then p.dump = some image.slot ∧ q = none
    else image.level = 0 ∧ p.isFull = false

variable {image : BeforeImage} {p' : DiskPlan} {q q' : Option QueueName} {delete : Bool}
  {reason : String}

/-- An image is of a record that is there. -/
theorem Faithful.lt (hi : Faithful image (n.plan id) q) : id < n.plans.length := by
  refine Nat.lt_of_not_le fun hle => ?_
  have hl := hi.level
  rw [plan_of_le hle] at hl
  cases hl

/-- The image of a dump that is put off is true afterwards. -/
theorem faithful_imageOf (hp : (n.plan id).Planned) (hf : delete = false → CanFallBack (n.plan id))
    (hoff : PutOff (n.plan id) delete reason p' q') :
    Faithful (imageOf n id delete reason) p' q' := by
  obtain ⟨slot, hd, hsized⟩ := hp.sized
  obtain ⟨level, hl⟩ := Option.isSome_iff_exists.mp (DiskPlan.levelAt?_isSome hsized)
  obtain ⟨size, hs⟩ := Option.isSome_iff_exists.mp hsized
  have hslot : (imageOf n id delete reason).slot = slot := by simp [imageOf, hd]
  have hlevel : (imageOf n id delete reason).level = level := by
    simp [imageOf, DiskPlan.dumpLevel?_eq, hd, hl]
  have hsize : (imageOf n id delete reason).mediaSize = size := by
    simp [imageOf, DiskPlan.dumpMediaSize, hd, hs]
  unfold PutOff at hoff
  cases delete with
  | true =>
    obtain ⟨rfl, rfl⟩ := hoff
    refine ⟨?_, ?_, ?_, hp.fallback, ?_⟩
    · rw [hslot, hlevel]
      exact hl
    · rw [hslot, hsize]
      exact hs
    · rw [hslot]
      exact hp.stands hd
    · rw [hslot]
      exact ⟨hd, rfl⟩
  | false =>
    obtain ⟨⟨d, hdeg, rfl⟩, rfl⟩ := hoff
    obtain ⟨hfull, -⟩ := hf rfl
    refine ⟨?_, ?_, ?_, (hp.switch hdeg).fallback, ?_, isFull_fallenBack hp hdeg⟩
    · rw [hslot, hlevel, fallenBack, DiskPlan.levelAt?_fixMedia]
      exact hl
    · rw [hslot, hsize, fallenBack, DiskPlan.mediaSize?_fixMedia]
      exact hs
    · rw [hslot]
      exact DiskPlan.StandsAt.fixMedia (p := { n.plan id with dump := some d }) (hp.stands hd)
    · rw [hlevel]
      rw [DiskPlan.isFull_eq_of_dump hd hl] at hfull
      exact of_decide_eq_true hfull

/-- Images of a scheduled record stay true when its dump is put off once more. -/
theorem Faithful.putOff (hi : Faithful image p (some .scheduled))
    (hf : delete = false → CanFallBack p) (hoff : PutOff p delete reason p' q') :
    image.deleted = false ∧ delete = true ∧ Faithful image p' q' := by
  have hnow := hi.now
  cases hdel : image.deleted with
  | true =>
    rw [hdel] at hnow
    cases hnow.2
  | false =>
    rw [hdel] at hnow
    unfold PutOff at hoff
    cases delete with
    | true =>
      obtain ⟨rfl, rfl⟩ := hoff
      refine ⟨rfl, rfl, hi.level, hi.size, hi.stands, hi.fallback, ?_⟩
      rw [hdel]
      exact hnow
    | false => cases hnow.2.symm.trans (hf rfl).1

/-- An image stays true when a size is looked at. -/
theorem Faithful.fixMedia (hi : Faithful image p q) : Faithful image (p.fixMedia slot) q := by
  refine ⟨?_, ?_, hi.stands.fixMedia, fun hd => ?_, ?_⟩
  · rw [DiskPlan.levelAt?_fixMedia]
    exact hi.level
  · rw [DiskPlan.mediaSize?_fixMedia]
    exact hi.size
  · rw [DiskPlan.Sized, DiskPlan.mediaSize?_fixMedia, DiskPlan.levelAt?_fixMedia]
    exact hi.fallback hd
  · rw [DiskPlan.isFull_fixMedia]
    exact hi.now

/-! ## Undoing -/

def putBack (image : BeforeImage) (p : DiskPlan) : DiskPlan := { p with dump := some image.slot }

theorem Faithful.putBack_planned (hi : Faithful image p q) : (putBack image p).Planned := by
  refine ⟨⟨image.slot, rfl, ?_⟩, fun hd => ?_, hi.fallback⟩
  · show (p.mediaSize? image.slot).isSome
    rw [hi.size]
    rfl
  · cases hd
    exact hi.stands

theorem Faithful.putBack_size (hi : Faithful image p q) :
    (putBack image p).dumpMediaSize = image.mediaSize := by
  have h : (putBack image p).dumpMediaSize = (p.mediaSize? image.slot).getD 0 := rfl
  rw [h, hi.size]
  rfl

/-- The image of a dropped dump has its size. -/
theorem Faithful.dropped_size (hi : Faithful image p q) (hdeleted : image.deleted = true) :
    image.mediaSize = p.dumpMediaSize := by
  have hnow := hi.now
  rw [hdeleted] at hnow
  rw [DiskPlan.dumpMediaSize_of_dump hnow.1, hi.size]
  rfl

theorem Faithful.putBack_isFull (hi : Faithful image p q) :
    (putBack image p).isFull = decide (image.level = 0) :=
  DiskPlan.isFull_eq_of_dump (p := putBack image p) rfl hi.level

/-- The size of the schedule with a change undone, if it can be undone. -/
def undoneSize? (n : Night) (image : BeforeImage) : Option Nat :=
  sizeIfUndone n image (if n.place image.record = some .scheduled && !image.deleted then
    (n.plan image.record).dumpMediaSize else 0)

def Fits (n : Night) (image : BeforeImage) (total : Nat) : Prop :=
  total ≤ n.media.capacity ∧ image.mediaSize ≤ n.media.ceiling (n.plan image.record).disk

def Undone (image : BeforeImage) (n : Night) (total : Nat) (k : Night) : Prop :=
  k.Orderly ∧ k.totals.size = total ∧ ∃ tot, Becomes image.record
    (putBack image (n.plan image.record)) (some .scheduled) (n.withTotals tot) k

/-- Where a change can be undone, and what the schedule takes then. -/
theorem undoneSize?_eq {total : Nat} (hi : Faithful image (n.plan image.record)
    (n.place image.record)) (h : undoneSize? n image = some total) :
    (image.deleted = true ∧ n.place image.record = none ∧
      total = n.totals.size + n.media.dumpCost image.mediaSize) ∨
    (image.deleted = false ∧ n.place image.record = some .scheduled ∧
      total = n.totals.size + image.mediaSize - (n.plan image.record).dumpMediaSize) := by
  have hnow := hi.now
  unfold undoneSize? sizeIfUndone at h
  cases hdel : image.deleted with
  | true =>
    rw [hdel] at h hnow
    obtain ⟨-, hp⟩ := hnow
    have hq : n.queues.queueOf image.record = none := hp
    refine Or.inl ⟨rfl, hp, ?_⟩
    simpa [hq, sizeWithImage, hdel] using h.symm
  | false =>
    by_cases hp : n.place image.record = some .scheduled
    · have hq : n.queues.queueOf image.record = some .scheduled := hp
      refine Or.inr ⟨rfl, hp, ?_⟩
      simpa [hdel, hp, hq, sizeWithImage] using h.symm
    · have hq : ¬n.queues.queueOf image.record = some .scheduled := hp
      simp [hdel, hq] at h

/-- What is undone takes no more than the schedule and what was there before. -/
theorem sizeIfUndone_le {total current : Nat} (h : sizeIfUndone n image current = some total) :
    total ≤ sizeWithImage n image := by
  unfold sizeIfUndone at h
  dsimp only at h
  split at h
  · split at h
    · cases h
    · exact Nat.le_of_eq (Option.some.inj h).symm
  · split at h
    · rw [← Option.some.inj h]
      exact Nat.sub_le ..
    · cases h

theorem undoneSize?_of_dropped (hd : image.deleted = true) (hp : n.place image.record = none) :
    undoneSize? n image = some (n.totals.size + n.media.dumpCost image.mediaSize) := by
  have hq : n.queues.queueOf image.record = none := hp
  simp [undoneSize?, sizeIfUndone, sizeWithImage, hd, hq]

theorem undoneSize?_of_softly (hd : image.deleted = false)
    (hp : n.place image.record = some .scheduled) : undoneSize? n image =
      some (n.totals.size + image.mediaSize - (n.plan image.record).dumpMediaSize) := by
  have hq : n.queues.queueOf image.record = some .scheduled := hp
  simp [undoneSize?, sizeIfUndone, sizeWithImage, hd, hp, hq]

/-- An image stays true when another change of its record is undone: only the drop of a dump
that had fallen back before can be. -/
theorem Faithful.beside {other : BeforeImage} {total : Nat}
    (ho : Faithful other (n.plan other.record) (n.place other.record))
    (h : undoneSize? n other = some total) (hd : image.deleted ≠ other.deleted)
    (hi : Faithful image (n.plan other.record) (n.place other.record)) :
    Faithful image (putBack other (n.plan other.record)) (some .scheduled) := by
  have hnow := ho.now
  have hnow' := hi.now
  rcases undoneSize?_eq ho h with ⟨hdel, -⟩ | ⟨hdel, hp, -⟩
  · rw [hdel] at hnow hd
    have hsame : putBack other (n.plan other.record) = n.plan other.record := by
      rw [putBack, ← hnow.1]
    rw [eq_false_of_ne_true hd] at hnow'
    rw [hsame]
    refine ⟨hi.level, hi.size, hi.stands, hi.fallback, ?_⟩
    rw [eq_false_of_ne_true hd]
    exact hnow'
  · rw [hdel] at hd
    rw [eq_true_of_ne_false hd, hp] at hnow'
    cases hnow'.2

/-- The accounts with a change undone. -/
theorem undone_accounts {total : Nat} (hn : n.Orderly) (hi : Faithful image
    (n.plan image.record) (n.place image.record)) (h : undoneSize? n image = some total) :
    total + share (fun p => n.media.dumpCost p.dumpMediaSize) (n.plan image.record)
        (n.place image.record) = n.totals.size + n.media.dumpCost image.mediaSize ∧
      share fullShare (n.plan image.record) (n.place image.record) = 0 := by
  have hnow := hi.now
  rcases undoneSize?_eq hi h with ⟨hdel, hp, rfl⟩ | ⟨hdel, hp, rfl⟩
  · rw [share, share, hp, if_neg (by simp), if_neg (by simp)]
    exact ⟨rfl, rfl⟩
  · rw [hdel] at hnow
    obtain ⟨hcost, -⟩ := hn.exact.no_clip hn.sound hp
    simp only [share, hp, if_true, fullShare, hnow.2]
    unfold Media.dumpCost at *
    exact ⟨by omega, rfl⟩

/-- Back on the schedule, a dump counts for what it counted before. -/
theorem leads_undo {total : Nat} (hn : n.Orderly) (hi : Faithful image (n.plan image.record)
    (n.place image.record)) (h : undoneSize? n image = some total) :
    Leads (undo image total) n (fun _ k => Undone image n total k) fail := by
  have hb := Becomes.refl (hn.sound.withTotals { n.totals with size := total }) hi.lt
  rw [plan_withTotals, place_withTotals] at hb
  have hothers : ∀ {j}, j ≠ image.record →
      (n.withTotals { n.totals with size := total }).place j = some .scheduled →
      ((n.withTotals { n.totals with size := total }).plan j).Planned :=
    fun _ => hn.planned
  have hplanned := hi.putBack_planned
  -- The dump gets a place on the schedule again, and if it is full it counts as one.
  have hcount : ∀ k, Becomes image.record (putBack image (n.plan image.record)) (some .scheduled)
      (n.withTotals { n.totals with size := total }) k →
      Leads (if image.level = 0 then modify (recountFull image.mediaSize) else pure ()) k
        (fun _ k => Undone image n total k) fail := by
    intro k hk
    obtain ⟨hsize, hfull⟩ := undone_accounts hn hi h
    have ht : k.totals.size = total := hk.alike.totals.size
    have htf : k.totals.fullSize = n.totals.fullSize := hk.alike.totals.fullSize
    have hshare : ∀ f, share f (putBack image (n.plan image.record)) (some .scheduled) =
        f (putBack image (n.plan image.record)) := fun _ => if_pos rfl
    have hcost : total + share (fun p => n.media.dumpCost p.dumpMediaSize)
        (n.plan image.record) (n.place image.record) = n.totals.size +
          share (fun p => n.media.dumpCost p.dumpMediaSize)
            (putBack image (n.plan image.record)) (some .scheduled) := by
      rw [hshare, hi.putBack_size]
      exact hsize
    split
    · rename_i hlevel
      have hk' := hk.withTotals (recountFull image.mediaSize k).totals
      refine ⟨hn.becomes hk' (fun _ => hplanned) (ht ▸ hcost) ?_, ht, _, hk'⟩
      show k.totals.fullSize + image.mediaSize + _ = _
      rw [htf, hfull, hshare, fullShare, hi.putBack_isFull, hlevel, hi.putBack_size]
      rfl
    · rename_i hlevel
      refine ⟨hn.becomes hk (fun _ => hplanned) hcost ?_, ht, _, hk⟩
      rw [hfull, hshare, fullShare, hi.putBack_isFull, decide_eq_false hlevel]
      rfl
  simp only [undo, leads_bind, leads_modify]
  refine leads_setPlan hb (fun _ => ⟨rfl, rfl⟩) fun k hk => ?_
  rcases undoneSize?_eq hi h with ⟨hdel, hp, -⟩ | ⟨hdel, hp, -⟩
  · rw [hdel, if_pos rfl, leads_bind]
    rw [hp] at hk
    exact leads_insertScheduled hk hplanned hothers hcount
  · rw [hdel, if_neg (by simp), leads_bind]
    rw [hp] at hk
    exact leads_resortScheduled hk hplanned hothers hcount

/-- What sizing and undoing keep is kept when a change is to be undone, whether it fits or not. -/
theorem keeps_undoIfFits {I : Night → Prop}
    (hsize : Leads (Planning.dumpMediaSize image.record) n (fun _ k => I k) fail)
    (hreckon : ∀ {m : Night} (what : Option Overflow), I m → I (m.reckon what))
    (hundo : ∀ {total : Nat} {m : Night}, I m → Leads (undo image total) m (fun _ k => I k) fail)
    (h : I n) : Leads (undoIfFits image) n (fun _ k => I k) fail := by
  have hfits : ∀ {total : Nat} {m : Night}, I m → Leads
      (if total ≤ n.media.capacity ∧ image.mediaSize ≤ n.media.ceiling (n.plan image.record).disk
        then do undo image total; pure true else pure false) m (fun _ k => I k) fail := by
    intro total m hm
    split
    · rw [leads_bind]
      exact hundo hm
    · exact hm
  simp only [undoIfFits, leads_bind, leads_get]
  split
  · rw [leads_bind]
    apply hsize.imp
    intro current m hm
    split
    · rw [leads_bind, Planning.leads_reckon]
      exact hfits (hreckon _ hm)
    · exact hm
  · rw [leads_bind, leads_pure]
    split
    · rw [leads_bind, Planning.leads_reckon]
      exact hfits (hreckon _ h)
    · exact h

inductive Tried (image : BeforeImage) (n : Night) : Bool → Night → Prop
  | undone {total : Nat} {k : Night} (size : undoneSize? n image = some total)
    (fits : Fits n image total) (reached : Undone image n total k) : Tried image n true k
  | stands (what : Option Overflow)
    (never : ∀ total, undoneSize? n image = some total → ¬Fits n image total) :
    Tried image n false (n.reckon what)

/-- **Undoing.** A change is undone if the schedule and the dump are not too big then, and
otherwise nothing changes but what has overflowed. -/
theorem leads_undoIfFits (hn : n.Orderly) (hi : Faithful image (n.plan image.record)
    (n.place image.record)) : Leads (undoIfFits image) n (Tried image n) fail := by
  have hsome : ∀ total, undoneSize? n image = some total → Leads (do
      Planning.reckon (sizesOverflow? [sizeWithImage n image])
      if total ≤ n.media.capacity ∧ image.mediaSize ≤ n.media.ceiling (n.plan image.record).disk
        then do undo image total; pure true else pure false) n (Tried image n) fail := by
    intro total h
    rw [leads_bind, Planning.leads_reckon]
    split
    · rename_i hfits
      rw [leads_bind]
      exact (leads_undo (hn.reckon _) hi h).imp fun _ _ hk => .undone h hfits hk
    · rename_i hfits
      refine .stands _ fun other hother => ?_
      cases h.symm.trans hother
      exact hfits
  have hnone : undoneSize? n image = none → Tried image n false n := by
    intro h
    have hstands : Tried image n false (n.reckon none) := .stands none fun total e => by
      cases h.symm.trans e
    rwa [Night.reckon_none] at hstands
  simp only [undoIfFits, leads_bind, leads_get]
  split
  · rename_i hcond
    have hp : n.place image.record = some .scheduled := by
      simp only [Bool.and_eq_true, decide_eq_true_eq] at hcond
      exact hcond.1
    have hsize : undoneSize? n image =
        sizeIfUndone n image (n.plan image.record).dumpMediaSize :=
      congrArg (sizeIfUndone n image) (if_pos hcond)
    rw [leads_bind, leads_iff_of_ok (dumpMediaSize_ok (hn.planned hp))]
    split
    · rename_i total h
      exact hsome total (hsize.trans h)
    · rename_i h
      exact hnone (hsize.trans h)
  · rename_i hcond
    have hsize : undoneSize? n image = sizeIfUndone n image 0 :=
      congrArg (sizeIfUndone n image) (if_neg hcond)
    rw [leads_bind, leads_pure]
    split
    · rename_i total h
      exact hsome total (hsize.trans h)
    · rename_i h
      exact hnone (hsize.trans h)

end Delaying

end NightlyBackup
