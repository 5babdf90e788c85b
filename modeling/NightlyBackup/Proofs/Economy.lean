import NightlyBackup.Proofs.Picking
import NightlyBackup.Proofs.Sifting

/-!
Which dumps are put off, and when. After the dumps that are too big for one run, full dumps that
nobody asked for yield, the lowest priority and the oldest last full dump first; then, if this is
allowed, full dumps that the operator asked for, from the tail of the schedule on; and at last
incrementals are dropped, from the tail on as well. No pass goes on when the schedule fits, and none
begins before the one in front of it has nothing left to put off.
-/

namespace NightlyBackup

open Night Planning Delaying

namespace DiskPlan

variable {p q : DiskPlan}

/-- A full dump of `p` yields no later than one of `q`: the lower priority first, then the older
last full dump; an unknown date is the youngest. -/
def Sooner (p q : DiskPlan) : Prop :=
  p.priority < q.priority ∨ (p.priority = q.priority ∧ dateKey p ≤ dateKey q)

/-- A full dump of `p` is kept rather than one of `q`: the higher priority first, then the older
last full dump. -/
def Dearer (p q : DiskPlan) : Prop :=
  q.priority < p.priority ∨ (p.priority = q.priority ∧ dateKey p ≤ dateKey q)

theorem yieldsBefore_iff : yieldsBefore p q = true ↔ p.Sooner q := by
  simp [yieldsBefore, Sooner]

theorem keptBefore_iff : keptBefore p q = true ↔ ¬q.Dearer p := by
  simp only [keptBefore, Dearer, Bool.or_eq_true, Bool.and_eq_true, decide_eq_true_eq]
  omega

/-- Held sizes do not change which full dump is kept. -/
theorem Held.dearer {p p' q q' : DiskPlan} (hp : p.Held p') (hq : q.Held q') :
    p'.Dearer q' ↔ p.Dearer q := by
  have hpriority : ∀ {a b : DiskPlan}, a.Held b → b.priority = a.priority := fun h =>
    h.keeps fun _ _ => rfl
  have hdate : ∀ {a b : DiskPlan}, a.Held b → dateKey b = dateKey a := fun h =>
    h.keeps fun _ _ => rfl
  rw [DiskPlan.Dearer, DiskPlan.Dearer, hpriority hp, hpriority hq, hdate hp, hdate hq]

end DiskPlan

namespace Night

def fulls (n : Night) : List Nat := n.scheduled.filter fun id => (n.plan id).isFull

def unforced (n : Night) : List Nat :=
  n.scheduled.filter fun id => (n.plan id).isFull && !(n.plan id).directives.forceFull

def Kept (n : Night) (id : Nat) : Prop :=
  FirstBest (fun i j => (n.plan i).Dearer (n.plan j)) n.fulls id

def MayYield (n : Night) (id : Nat) : Prop :=
  (n.plan id).isFull = true ∧ ((n.plan id).directives.forceFull = true →
    n.settings.delayForcedFulls = true ∧ ¬n.Kept id)

def YieldsNext (n : Night) (id : Nat) : Prop :=
  FirstBest (fun i j => (n.plan i).Sooner (n.plan j)) n.unforced id

/-- The next of the full dumps that the operator asked for, if they may be put off: the last one on
the schedule, when there are no others any more. -/
def ForcedNext (n : Night) (id : Nat) : Prop :=
  n.settings.delayForcedFulls = true ∧ n.unforced = [] ∧
    LastOf (fun j => (n.plan j).isFull = true ∧ (n.plan j).directives.forceFull = true ∧ ¬n.Kept j)
      n.scheduled id

/-- The next of the incrementals: the last one on the schedule, when there is no full dump any more
that may be put off. -/
def DroppedNext (n : Night) (id : Nat) : Prop :=
  (∀ j ∈ n.scheduled, ¬n.MayYield j) ∧ LastOf (fun j => (n.plan j).isFull = false) n.scheduled id

end Night

namespace Delaying

variable {a n : Night} {s t u : Shrinking} {id : Nat} {ids l r : List Nat}
  {images : List BeforeImage} {image : BeforeImage} {softly : String} {preserved : Option Nat}
  {Next : Night → Nat → Prop} {fail : Fault → Shrinking → Prop}

/-- A pass over the schedule: as long as it does not fit, the dump that is next is put off, until
there is none. -/
inductive Pass (Next : Night → Nat → Prop) : Shrinking → List BeforeImage → Shrinking → Prop
  | done {s : Shrinking} : (s.night.totals.size ≤ s.night.media.capacity ∨
      ∀ id, ¬Next s.night id) → Pass Next s [] s
  | step {s t u : Shrinking} {image : BeforeImage} {images : List BeforeImage} :
    s.night.media.capacity < s.night.totals.size → Next s.night image.record →
    (∃ reason, delay image.record image.deleted reason s = .ok () t) → t.log = image :: s.log →
    Pass Next t images u → Pass Next s (image :: images) u

namespace Pass

theorem log (h : Pass Next s images t) : t.log = images.reverse ++ s.log := by
  induction h with
  | done => rfl
  | step _ _ _ hlog _ ih =>
    rw [ih, hlog, List.reverse_cons, List.append_assoc]
    rfl

theorem ends (h : Pass Next s images t) :
    t.night.totals.size ≤ t.night.media.capacity ∨ ∀ id, ¬Next t.night id := by
  induction h with
  | done h => exact h
  | step _ _ _ _ _ ih => exact ih

theorem delayed (hexceeds : s.night.media.capacity < s.night.totals.size)
    (hnext : Next s.night image.record) (hdelayed : Delayed image s t)
    (h : Pass Next t images u) : Pass Next s (image :: images) u :=
  .step hexceeds hnext hdelayed.acted hdelayed.logged h

end Pass

/-! ## What is left of the choices -/

namespace Delayed

variable (h : Delayed image s t)

include h

theorem fulls : t.night.fulls = s.night.fulls.filter (· ≠ image.record) :=
  h.filter (P := DiskPlan.isFull) h.incremental

theorem unforced : t.night.unforced = s.night.unforced.filter (· ≠ image.record) :=
  h.filter (P := fun p => p.isFull && !p.directives.forceFull) fun hp => by
    simp [h.incremental hp]

end Delayed

namespace Thinned

variable (h : Thinned s images t)

include h

theorem fulls : t.night.fulls =
    s.night.fulls.filter fun id => id ∉ images.map (·.record) :=
  h.filter (P := DiskPlan.isFull) (fun _ hp => hp) fun _ _ => DiskPlan.isFull_fixMedia

theorem unforced : t.night.unforced =
    s.night.unforced.filter fun id => id ∉ images.map (·.record) :=
  h.filter (P := fun p => p.isFull && !p.directives.forceFull)
    (fun _ hp => (Bool.and_eq_true_iff.mp hp).1) fun p slot => by
      rw [DiskPlan.isFull_fixMedia]
      rfl

/-- A full dump that is left is planned as before. -/
theorem held_of_mem_fulls (hid : id ∈ t.night.fulls) :
    (s.night.plan id).Held (t.night.plan id) := by
  rw [h.fulls] at hid
  have hnot : id ∉ images.map (·.record) := of_decide_eq_true (List.mem_filter.mp hid).2
  exact (h.others fun image hi e => hnot (List.mem_map.mpr ⟨image, hi, e⟩)).2

/-- The full dump that is kept in any case is kept again, unless it was put off. -/
theorem kept (hid : ∀ image ∈ images, image.record ≠ id) (hkept : s.night.Kept id) :
    t.night.Kept id := by
  have hnot : id ∉ images.map (·.record) := by
    intro hmem
    obtain ⟨image, hi, e⟩ := List.mem_map.mp hmem
    exact hid image hi e
  rw [Night.Kept, h.fulls]
  refine FirstBest.filter hkept (decide_eq_true hnot) fun j hj hleft => ?_
  have hheld : (s.night.plan j).Held (t.night.plan j) :=
    h.held_of_mem_fulls (h.fulls ▸ List.mem_filter.mpr ⟨hj, hleft⟩)
  have hheld' : (s.night.plan id).Held (t.night.plan id) := (h.others hid).2
  exact ⟨hheld.dearer hheld', hheld'.dearer hheld⟩

end Thinned

theorem Delayed.kept (h : Delayed image s t) (hid : id ≠ image.record) (hkept : s.night.Kept id) :
    t.night.Kept id :=
  Thinned.kept (.delayed h (.refl t)) (by simpa using hid.symm) hkept

/-! ## Full dumps that nobody asked for -/

structure InTurn (n : Night) (ids : List Nat) : Prop where
  perm : ids.Perm n.unforced
  turn : ids.Pairwise fun i j => (n.plan i).Sooner (n.plan j) ∧
    ((n.plan j).Sooner (n.plan i) → [i, j].Sublist n.scheduled)

theorem inTurn_yieldingFulls (hs : n.Sound) : InTurn n (yieldingFulls n) := by
  have hsorted : (yieldingFulls n).Pairwise fun i j => yieldsBefore (n.plan i) (n.plan j) = true ∧
      (yieldsBefore (n.plan j) (n.plan i) = true → [i, j].Sublist n.unforced) := by
    apply mergeSort_inTurn
    · intro i j k
      simp only [DiskPlan.yieldsBefore_iff, DiskPlan.Sooner]
      omega
    · intro i j
      simp only [Bool.or_eq_true, DiskPlan.yieldsBefore_iff, DiskPlan.Sooner]
      omega
    · exact hs.nodup_scheduled.filter _
  constructor
  · exact List.mergeSort_perm _ _
  · apply hsorted.imp
    intro i j hij
    rw [DiskPlan.yieldsBefore_iff, DiskPlan.yieldsBefore_iff] at hij
    exact ⟨hij.1, fun hji => (hij.2 hji).trans List.filter_sublist⟩

namespace InTurn

theorem next (h : InTurn n (id :: ids)) (hs : n.Sound) : n.YieldsNext id :=
  firstBest_of_turn hs.nodup_scheduled List.filter_sublist h.perm (List.pairwise_cons.mp h.turn).1

theorem delayed (h : InTurn s.night (image.record :: ids)) (hs : s.night.Sound)
    (hd : Delayed image s t) : InTurn t.night ids := by
  have hnodup := h.perm.nodup_iff.mpr (hs.nodup_scheduled.filter _)
  have hne : ∀ {j}, j ∈ ids → j ≠ image.record := fun hj e =>
    (List.nodup_cons.mp hnodup).1 (e ▸ hj)
  have hids : (image.record :: ids).filter (· ≠ image.record) = ids :=
    filter_ne_of_nodup (l := []) hnodup
  constructor
  · rw [hd.unforced, ← hids]
    exact h.perm.filter _
  · refine List.Pairwise.imp_of_mem ?_ (List.pairwise_cons.mp h.turn).2
    rintro i j hi hj ⟨hij, htie⟩
    rw [hd.plan (hne hi), hd.plan (hne hj)]
    exact ⟨hij, fun hji => hd.sublist (hne hi) (hne hj) (htie hji)⟩

end InTurn

theorem leads_delayFull_delayed (hs : s.night.Orderly) (hp : s.night.place id = some .scheduled)
    (hfull : (s.night.plan id).isFull = true) : Leads (delayFull softly id) s
      (fun _ t => ∃ image, image.record = id ∧ Delayed image s t) fail := by
  simp only [delayFull, leads_bind, leads_getNight, leads_lift,
    leads_iff_of_ok (Planning.dumpMediaSize_ok (hs.planned hp))]
  split
  · exact Leads.imp (leads_delay_delayed hs hp (by simp)) fun _ _ h => ⟨_, rfl, h⟩
  · rename_i hnone
    exact Leads.imp (leads_delay_delayed hs hp fun _ => canFallBack_of_none hfull hnone)
      fun _ _ h => ⟨_, rfl, h⟩

/-- Full dumps that nobody asked for are put off in turn. -/
theorem leads_pass_yielding (hs : Logged a s.night s.log) (hturn : InTurn s.night ids) :
    Leads (whileExceeding (delayFull softly) ids) s (fun _ t => ∃ images,
      Pass YieldsNext s images t ∧ Thinned s images t ∧ ∀ image ∈ images, image.record ∈ ids)
      fail := by
  induction ids generalizing s with
  | nil =>
    refine ⟨[], .done (Or.inr fun id hid => ?_), .refl s, by simp⟩
    have hmem := hturn.perm.mem_iff.mpr hid.mem
    cases hmem
  | cons id ids ih =>
    simp only [whileExceeding, exceeds, leads_bind, leads_getNight, leads_pure]
    split
    · rename_i hexceeds
      have hnext := hturn.next hs.orderly.sound
      obtain ⟨hmem, hcond⟩ := List.mem_filter.mp hnext.mem
      rw [leads_bind]
      refine (leads_delayFull_delayed hs.orderly (hs.orderly.sound.mem_scheduled.mp hmem)
        (Bool.and_eq_true_iff.mp hcond).1).imp ?_
      rintro _ t ⟨image, rfl, hd⟩
      refine (ih (hs.changes hd.visited.changes) (hturn.delayed hs.orderly.sound hd)).imp ?_
      rintro _ u ⟨images, hpass, hthinned, hids⟩
      exact ⟨image :: images, .delayed (of_decide_eq_true hexceeds) hnext hd hpass,
        .delayed hd hthinned, List.forall_mem_cons.mpr ⟨List.mem_cons_self, fun i hi =>
          List.mem_cons_of_mem _ (hids i hi)⟩⟩
    · rename_i hfits
      exact ⟨[], .done (Or.inl (by simpa using hfits)), .refl s, by simp⟩

/-- When no full dump is next, there is none that nobody asked for. -/
theorem unforced_eq_nil (hs : n.Sound) (hnone : ∀ id, ¬n.YieldsNext id) : n.unforced = [] := by
  have hturn := inTurn_yieldingFulls hs
  cases hyield : yieldingFulls n with
  | nil =>
    rw [hyield] at hturn
    exact hturn.perm.nil_eq.symm
  | cons id ids =>
    rw [hyield] at hturn
    exact absurd (hturn.next hs) (hnone id)

/-! ## Full dumps that the operator asked for -/

def Preserves (n : Night) (preserved : Option Nat) : Prop :=
  BestOf (fun i j => (n.plan i).Dearer (n.plan j)) n.fulls preserved

theorem preserves_preserved? (n : Night) : Preserves n (preserved? n) := by
  unfold Preserves preserved?
  apply foldl_bestOf
  · intro i j k
    simp only [DiskPlan.Dearer]
    omega
  · intro i j
    simp only [DiskPlan.Dearer]
    omega
  · exact fun _ => rfl
  · exact fun h => if_pos (DiskPlan.keptBefore_iff.mpr h)
  · exact fun h => if_neg fun hbefore => DiskPlan.keptBefore_iff.mp hbefore h

theorem Delayed.preserves (hd : Delayed image s t) (h : Preserves s.night preserved)
    (hid : preserved ≠ some image.record) : Preserves t.night preserved := by
  cases preserved with
  | none =>
    show t.night.fulls = []
    rw [hd.fulls, show s.night.fulls = [] from h]
    rfl
  | some best => exact hd.kept (fun e => hid (congrArg some e)) h

/-- Where a walk over the schedule stands that puts off full dumps that the operator asked for:
`l` is still to be visited, from its end on, and of what has been passed, `r`, nothing can be put
off. -/
structure Walking (n : Night) (preserved : Option Nat) (l r : List Nat) : Prop where
  split : n.scheduled = l ++ r
  allowed : n.settings.delayForcedFulls = true
  forced : n.unforced = []
  preserves : Preserves n preserved
  passed : ∀ id ∈ r, (n.plan id).isFull = true → preserved = some id

def yields (n : Night) (preserved : Option Nat) (id : Nat) : Bool :=
  (n.plan id).isFull && preserved ≠ some id

namespace Walking

theorem forceFull (h : Walking n preserved l r) (hid : id ∈ n.scheduled)
    (hfull : (n.plan id).isFull = true) : (n.plan id).directives.forceFull = true := by
  have hnot : id ∉ n.unforced := by
    rw [h.forced]
    exact List.not_mem_nil
  simpa [Night.unforced, hid, hfull] using hnot

/-- When all of the schedule has been passed, nothing is next. -/
theorem finished (h : Walking n preserved [] r) : ¬n.ForcedNext id := by
  rintro ⟨-, -, front, back, hsplit, ⟨hfull, -, hnot⟩, -⟩
  have hid : id ∈ r := by
    rw [h.split, List.nil_append] at hsplit
    rw [hsplit]
    exact List.mem_append_right front List.mem_cons_self
  exact hnot (h.preserves.firstBest_iff.mpr (h.passed id hid hfull))

theorem next (h : Walking n preserved (l ++ [id]) r) (hfull : (n.plan id).isFull = true)
    (hid : preserved ≠ some id) : n.ForcedNext id := by
  have hsplit : n.scheduled = l ++ id :: r := by simp [h.split]
  refine ⟨h.allowed, h.forced, l, r, hsplit, ⟨hfull, h.forceFull (by simp [hsplit]) hfull,
    fun hkept => hid (h.preserves.firstBest_iff.mp hkept)⟩, fun j hj hnext => ?_⟩
  exact hnext.2.2 (h.preserves.firstBest_iff.mpr (h.passed j hj hnext.1))

/-- A record that nothing is done about is passed. -/
theorem pass (h : Walking n preserved (l ++ [id]) r)
    (hid : (n.plan id).isFull = true → preserved = some id) :
    Walking n preserved l (id :: r) where
  split := by simp [h.split]
  allowed := h.allowed
  forced := h.forced
  preserves := h.preserves
  passed := List.forall_mem_cons.mpr ⟨hid, h.passed⟩

/-- When a dump is put off, the walk goes on in front of it, and has one dump fewer to put off,
even if it comes to this one again. -/
theorem delayed (h : Walking s.night preserved (l ++ [image.record]) r) (hs : s.night.Sound)
    (hd : Delayed image s t) (hid : preserved ≠ some image.record) : ∃ l' r',
    Walking t.night preserved l' r' ∧ l'.getLast? = l.getLast? ∧ l'.length ≤ l.length + 1 ∧
      l'.countP (yields t.night preserved) = l.countP (yields s.night preserved) := by
  have hsplit : s.night.scheduled = l ++ image.record :: r := by simp [h.split]
  have hothers : s.night.others image.record = l ++ r := by
    rw [Night.others, hsplit]
    exact filter_ne_of_nodup (hsplit ▸ hs.nodup_scheduled)
  obtain ⟨l', r', hsplit', hlast, hl', hr'⟩ := hd.cut hothers
  have hscheduled : ∀ {j}, j ∈ l' ++ r' → t.night.place j = some .scheduled := fun hj =>
    hd.sound.mem_scheduled.mp (hsplit' ▸ hj)
  refine ⟨l', r', ⟨hsplit', hd.settings ▸ h.allowed, ?_, hd.preserves h.preserves hid, ?_⟩,
    hlast, ?_, ?_⟩
  · rw [hd.unforced, h.forced]
    rfl
  · intro j hj hfull
    by_cases e : j = image.record
    · subst e
      have hincr := hd.incremental (hscheduled (List.mem_append_right l' hj))
      cases hfull.symm.trans hincr
    · have hjr : j ∈ r := hr' ▸ List.mem_filter.mpr ⟨hj, decide_eq_true e⟩
      exact h.passed j hjr (hd.plan e ▸ hfull)
  · have hnodup : l'.Nodup := (List.nodup_append.mp (hsplit' ▸ hd.sound.nodup_scheduled)).1
    have herase : l'.erase image.record = l := by
      rw [hnodup.erase_eq_filter, ← hl']
      exact List.filter_congr fun j _ => by rw [Bool.eq_iff_iff]; simp
    rw [← herase]
    exact Nat.sub_le_iff_le_add.mp List.le_length_erase
  · rw [← hl', List.countP_filter]
    refine List.countP_congr fun j hj => ?_
    by_cases e : j = image.record
    · have hincr := hd.incremental (e ▸ hscheduled (List.mem_append_left r' hj))
      simp [yields, e, hincr]
    · simp [yields, e, hd.plan e]

end Walking

/-- Full dumps that the operator asked for are put off from the tail of the schedule on. The walk
visits a record again at most once for each dump that it puts off. -/
theorem leads_pass_forced (places : Nat) (hs : Logged a s.night s.log)
    (hw : Walking s.night preserved l r)
    (hplaces : l.length + l.countP (yields s.night preserved) ≤ places) :
    Leads (delayForcedFrom preserved places l.getLast?) s (fun _ t => ∃ images,
      Pass ForcedNext s images t ∧ Thinned s images t ∧
        ∀ image ∈ images, preserved ≠ some image.record) fail := by
  induction places generalizing s l r with
  | zero =>
    obtain rfl : l = [] := List.eq_nil_of_length_eq_zero (by omega)
    exact ⟨[], .done (Or.inr fun _ => hw.finished), .refl s, by simp⟩
  | succ places ih =>
    rcases List.eq_nil_or_concat l with rfl | ⟨l, id, rfl⟩
    · exact ⟨[], .done (Or.inr fun _ => hw.finished), .refl s, by simp⟩
    · rw [List.concat_eq_append] at hw hplaces ⊢
      rw [List.length_append, List.countP_append, List.length_singleton,
        List.countP_singleton] at hplaces
      have hsplit : s.night.scheduled = l ++ id :: r := by simp [hw.split]
      have hmem : id ∈ s.night.scheduled := by simp [hsplit]
      have hprev : s.night.queues.prev? id = l.getLast? := by
        rw [Queues.prev?, Queues.Holds.link_eq hs.orderly.sound.valid hsplit]
      rw [List.getLast?_concat]
      simp only [delayForcedFrom, exceeds, leads_bind, leads_getNight, leads_pure]
      split
      · rename_i hexceeds
        simp only [leads_bind, leads_getNight]
        rw [hprev]
        split
        · rename_i hcond
          simp only [Bool.and_eq_true, decide_eq_true_eq] at hcond
          obtain ⟨⟨hfull, -⟩, hid⟩ := hcond
          rw [if_pos (by simp [yields, hfull, hid])] at hplaces
          rw [leads_bind]
          refine (leads_delayFull_delayed hs.orderly
            (hs.orderly.sound.mem_scheduled.mp hmem) hfull).imp ?_
          rintro _ t ⟨image, rfl, hd⟩
          obtain ⟨l', r', hw', hlast, hlength, hcount⟩ := hw.delayed hs.orderly.sound hd hid
          rw [← hlast]
          refine (ih (hs.changes hd.visited.changes) hw' (by omega)).imp ?_
          rintro _ u ⟨images, hpass, hthinned, hspared⟩
          exact ⟨image :: images,
            .delayed (of_decide_eq_true hexceeds) (hw.next hfull hid) hd hpass,
            .delayed hd hthinned, List.forall_mem_cons.mpr ⟨hid, hspared⟩⟩
        · rename_i hcond
          have hpassed : (s.night.plan id).isFull = true → preserved = some id := by
            intro hfull
            simpa [hfull, hw.forceFull hmem hfull] using hcond
          exact ih hs (hw.pass hpassed) (by omega)
      · rename_i hfits
        exact ⟨[], .done (Or.inl (by simpa using hfits)), .refl s, by simp⟩

/-- The pass over the whole schedule. -/
theorem leads_pass_forcedFulls (hs : Logged a s.night s.log) (hforced : s.night.unforced = [])
    (hallowed : s.night.settings.delayForcedFulls = true) :
    Leads delayForcedFulls s (fun _ t => ∃ images, Pass ForcedNext s images t ∧
      Thinned s images t ∧ ∀ image ∈ images, ¬s.night.Kept image.record) fail := by
  have hw : Walking s.night (preserved? s.night) s.night.scheduled [] :=
    ⟨(List.append_nil _).symm, hallowed, hforced, preserves_preserved? _, by simp⟩
  have htail : s.night.queues.tail? .scheduled = s.night.scheduled.getLast? :=
    Queues.Holds.tail?_eq hs.orderly.sound.valid
  simp only [delayForcedFulls, exceeds, leads_bind, leads_getNight, leads_pure]
  split
  swap
  · rename_i hfits
    exact ⟨[], .done (Or.inl (by simpa using hfits)), .refl s, by simp⟩
  simp only [leads_bind, leads_getNight]
  rw [htail]
  have hcount : s.night.scheduled.countP (yields s.night (preserved? s.night)) ≤
      s.night.scheduled.length := List.countP_le_length
  apply (leads_pass_forced _ hs hw (by omega)).imp
  rintro _ t ⟨images, hpass, hthinned, hspared⟩
  exact ⟨images, hpass, hthinned, fun image himage hkept =>
    hspared image himage (hw.preserves.firstBest_iff.mp hkept)⟩

/-! ## Incrementals -/

/-- When there are no full dumps any more that nobody asked for, and none of the others is next, no
full dump may be put off. -/
theorem not_mayYield (hforced : n.unforced = []) (hnone : ∀ id, ¬n.ForcedNext id) :
    ∀ id ∈ n.scheduled, ¬n.MayYield id := by
  rintro id hid ⟨hfull, hyield⟩
  cases hforce : (n.plan id).directives.forceFull with
  | false =>
    have hmem : id ∈ n.unforced := List.mem_filter.mpr ⟨hid, by simp [hfull, hforce]⟩
    rw [hforced] at hmem
    cases hmem
  | true =>
    obtain ⟨hallowed, hkept⟩ := hyield hforce
    obtain ⟨last, hlast⟩ := exists_lastOf (P := fun j => (n.plan j).isFull = true ∧
      (n.plan j).directives.forceFull = true ∧ ¬n.Kept j) hid ⟨hfull, hforce, hkept⟩
    exact hnone last ⟨hallowed, hforced, hlast⟩

theorem leads_dropIncremental_delayed (hs : s.night.Orderly)
    (hp : s.night.place id = some .scheduled) : Leads (dropIncremental id) s
      (fun _ t => ∃ image, image.record = id ∧ image.deleted = true ∧ Delayed image s t) fail := by
  simp only [dropIncremental, leads_bind, leads_lift,
    leads_iff_of_ok (Planning.dumpMediaSize_ok (hs.planned hp))]
  exact Leads.imp (leads_delay_delayed hs hp (by simp)) fun _ _ h => ⟨_, rfl, rfl, h⟩

namespace Delayed

variable (h : Delayed image s t) (hdeleted : image.deleted = true)

include h hdeleted

theorem ne_of_dropped (hid : id ∈ t.night.scheduled) : id ≠ image.record := by
  rintro rfl
  cases (h.dropped hdeleted).symm.trans (h.sound.mem_scheduled.mp hid)

theorem incrementals (hs : s.night.Sound)
    (hids : Delaying.incrementals s.night = image.record :: ids) :
    Delaying.incrementals t.night = ids := by
  have hnodup : (image.record :: ids).Nodup := by
    rw [← hids]
    exact (List.nodup_reverse.mpr hs.nodup_scheduled).filter _
  have hrest : (image.record :: ids).filter (· ≠ image.record) = ids :=
    filter_ne_of_nodup (l := []) hnodup
  have hfilter := h.filter (P := fun p => !p.isFull) fun hp => by
    cases (h.dropped hdeleted).symm.trans hp
  rw [← hrest, ← hids, Delaying.incrementals, Delaying.incrementals, List.filter_reverse, hfilter,
    List.filter_reverse, List.filter_reverse]

/-- What may not be put off may not be put off afterwards. -/
theorem not_mayYield (hs : s.night.Sound)
    (hnone : ∀ id ∈ s.night.scheduled, ¬s.night.MayYield id) :
    ∀ id ∈ t.night.scheduled, ¬t.night.MayYield id := by
  rintro id hid ⟨hfull, hyield⟩
  have hne := h.ne_of_dropped hdeleted hid
  have hp := h.sound.mem_scheduled.mp hid
  rw [h.place hne] at hp
  rw [h.plan hne] at hfull hyield
  rw [h.settings] at hyield
  refine hnone id (hs.mem_scheduled.mpr hp) ⟨hfull, fun hforce => ?_⟩
  obtain ⟨hallowed, hkept⟩ := hyield hforce
  exact ⟨hallowed, fun hk => hkept (h.kept hne hk)⟩

end Delayed

/-- Incrementals are dropped from the tail of the schedule on, when no full dump may be put off. -/
theorem leads_pass_dropping (hs : Logged a s.night s.log) (hids : incrementals s.night = ids)
    (hnone : s.night.media.capacity < s.night.totals.size →
      ∀ id ∈ s.night.scheduled, ¬s.night.MayYield id) :
    Leads (whileExceeding dropIncremental ids) s (fun _ t => ∃ images,
      Pass DroppedNext s images t ∧ Thinned s images t ∧ ∀ image ∈ images,
        image.deleted = true ∧ image.record ∉ t.night.scheduled) fail := by
  induction ids generalizing s with
  | nil =>
    refine ⟨[], .done (Or.inr fun id hid => ?_), .refl s, by simp⟩
    obtain ⟨-, front, back, hsplit, hincr, -⟩ := hid
    have hmem : id ∈ incrementals s.night := by simp [incrementals, hsplit, hincr]
    rw [hids] at hmem
    cases hmem
  | cons id ids ih =>
    simp only [whileExceeding, exceeds, leads_bind, leads_getNight, leads_pure]
    split
    · rename_i hexceeds
      have hexceeds := of_decide_eq_true hexceeds
      have hsound := hs.orderly.sound
      have hlast : LastOf (fun j => (s.night.plan j).isFull = false) s.night.scheduled id := by
        simpa using lastOf_of_reverse hids
      have hmem : id ∈ s.night.scheduled := by
        obtain ⟨front, back, hsplit, -⟩ := hlast
        simp [hsplit]
      rw [leads_bind]
      apply (leads_dropIncremental_delayed hs.orderly (hsound.mem_scheduled.mp hmem)).imp
      rintro _ t ⟨image, rfl, hdeleted, hd⟩
      apply (ih (hs.changes hd.visited.changes) (hd.incrementals hdeleted hsound hids)
        fun _ => hd.not_mayYield hdeleted hsound (hnone hexceeds)).imp
      rintro _ u ⟨images, hpass, hthinned, hgone⟩
      refine ⟨image :: images, .delayed hexceeds ⟨hnone hexceeds, hlast⟩ hd hpass,
        .delayed hd hthinned, List.forall_mem_cons.mpr ⟨⟨hdeleted, fun hid => ?_⟩, hgone⟩⟩
      have hp := hthinned.scheduled (hthinned.sound hd.sound |>.mem_scheduled.mp hid)
      cases (hd.dropped hdeleted).symm.trans hp
    · rename_i hfits
      exact ⟨[], .done (Or.inl (by simpa using hfits)), .refl s, by simp⟩

/-! ## All passes -/

structure LastPasses (b c s : Shrinking) (forced incrementals : List BeforeImage) : Prop where
  insisted : Pass ForcedNext b forced c
  spared : ∀ image ∈ forced, ¬b.night.Kept image.record
  dropped : Pass DroppedNext c incrementals s
  gone : ∀ image ∈ incrementals, image.deleted = true ∧ image.record ∉ s.night.scheduled

structure Passes (n : Night) (a b c s : Shrinking) (fulls forced incrementals : List BeforeImage) :
    Prop extends LastPasses b c s forced incrementals where
  begun : Changes ⟨n, []⟩ a
  oversize : a.log.reverse.map (·.record) = n.scheduled.filter n.tooBig
  yielded : Pass YieldsNext a fulls b

structure LastThinned (b c s : Shrinking) (forced incrementals : List BeforeImage) : Prop where
  insisted : Thinned b forced c
  dropped : Thinned c incrementals s

structure AllThinned (n : Night) (a b c s : Shrinking)
    (fulls forced incrementals : List BeforeImage) : Prop
    extends LastThinned b c s forced incrementals where
  oversize : Thinned ⟨n, []⟩ a.log.reverse a
  yielded : Thinned a fulls b
  unforced : ∀ image ∈ fulls, image.record ∈ a.night.unforced

theorem AllThinned.thinned {c : Shrinking} {fulls forced incrementals : List BeforeImage}
    (h : AllThinned n s t c u fulls forced incrementals) :
    Thinned ⟨n, []⟩ (s.log.reverse ++ fulls ++ (forced ++ incrementals)) u :=
  (h.oversize.trans h.yielded).trans (h.insisted.trans h.dropped)

/-- When the second pass leaves no full dump that nobody asked for, unless the schedule fits, the
last two passes go on from there. -/
theorem leads_lastPasses (hs : Logged a s.night s.log)
    (hyielded : s.night.media.capacity < s.night.totals.size → s.night.unforced = []) :
    Leads (do
      if (← getNight).settings.delayForcedFulls then delayForcedFulls
      whileExceeding dropIncremental (incrementals (← getNight))) s
      (fun _ u => ∃ t forced incrementals, LastPasses s t u forced incrementals ∧
        LastThinned s t u forced incrementals) fail := by
  have hlast : ∀ {t forced}, Pass ForcedNext s forced t → Thinned s forced t →
      (∀ image ∈ forced, ¬s.night.Kept image.record) →
      (t.night.media.capacity < t.night.totals.size → t.night.unforced = []) →
      Leads (whileExceeding dropIncremental (incrementals t.night)) t
        (fun _ u => ∃ t forced incrementals, LastPasses s t u forced incrementals ∧
          LastThinned s t u forced incrementals) fail := by
    intro t forced hforced hthinned hspared hnone
    apply (leads_pass_dropping (hs.changes hthinned.changes) rfl fun hexceeds => not_mayYield
      (hnone hexceeds) (hforced.ends.resolve_left (Nat.not_le.mpr hexceeds))).imp
    rintro _ u ⟨incrementals, hdropped, hthinned', hgone⟩
    exact ⟨t, forced, incrementals, ⟨hforced, hspared, hdropped, hgone⟩, hthinned, hthinned'⟩
  simp only [leads_bind, leads_getNight]
  split
  · rename_i hallowed
    rw [leads_bind]
    by_cases hexceeds : s.night.media.capacity < s.night.totals.size
    · have hnone := hyielded hexceeds
      apply (leads_pass_forcedFulls hs hnone hallowed).imp
      rintro _ t ⟨forced, hforced, hthinned, hspared⟩
      refine hlast hforced hthinned hspared fun _ => ?_
      rw [hthinned.unforced, hnone]
      rfl
    · have hfits := Nat.le_of_not_lt hexceeds
      apply (leads_delayForcedFulls_fits hfits).imp
      rintro _ _ rfl
      exact hlast (.done (Or.inl hfits)) (.refl _) (by simp) hyielded
  · rename_i hforbidden
    exact hlast (.done (Or.inr fun _ h => hforbidden h.1)) (.refl s) (by simp) hyielded

/-- **All passes.** -/
theorem leads_passes_thinned (hn : n.Orderly) : Leads delayDumps ⟨n, []⟩ (fun _ s =>
    ∃ a b c fulls forced incrementals, Passes n a b c s fulls forced incrementals ∧
      AllThinned n a b c s fulls forced incrementals) fail := by
  have hl : Logged n n [] := .refl hn
  rw [delayDumps, leads_bind, leads_getNight, leads_bind]
  apply (leads_sifted (s := ⟨n, []⟩) hl hn.sound.nodup_scheduled
    fun _ => hn.sound.mem_scheduled.mp).imp
  rintro _ a ⟨images, hsifted⟩
  have hlog : a.log.reverse = images := by simp [hsifted.thinned.log]
  subst hlog
  have hla := hl.changes (s := ⟨n, []⟩) hsifted.thinned.changes
  have hturn := inTurn_yieldingFulls hla.orderly.sound
  rw [leads_bind, leads_getNight, leads_bind]
  apply (leads_pass_yielding hla hturn).imp
  rintro _ b ⟨fulls, hfulls, hyielded, hrecords⟩
  have hlb := hla.changes hyielded.changes
  apply (leads_lastPasses hlb fun hexceeds => unforced_eq_nil hlb.orderly.sound
    (hfulls.ends.resolve_left (Nat.not_le.mpr hexceeds))).imp
  rintro _ s ⟨c, forced, incrementals, hlast, hthinned⟩
  exact ⟨a, b, c, fulls, forced, incrementals,
    ⟨hlast, hsifted.thinned.changes, hsifted.records, hfulls⟩,
    hthinned, hsifted.thinned, hyielded, fun i hi => hturn.perm.mem_iff.mp (hrecords i hi)⟩

end Delaying

end NightlyBackup
