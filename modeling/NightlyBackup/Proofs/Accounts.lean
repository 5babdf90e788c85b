import NightlyBackup.Proofs.Becoming
import NightlyBackup.Proofs.Sizes

/-!
The accounts of a schedule: what its dumps take on media, and the size of its full dumps. When
something becomes of one record, these sums change by what the record counts for before and
after; the order of the schedule does not matter.
-/

namespace NightlyBackup

/-! ## Sums of sizes -/

theorem totalSize_cons (size : Nat) (sizes : List Nat) :
    totalSize (size :: sizes) = size + totalSize sizes := rfl

theorem totalSize_perm {a b : List Nat} (h : a.Perm b) : totalSize a = totalSize b := by
  induction h with
  | nil => rfl
  | cons size _ ih => rw [totalSize_cons, totalSize_cons, ih]
  | swap x y l =>
    simp only [totalSize_cons]
    omega
  | trans _ _ ihab ihbc => exact ihab.trans ihbc

theorem le_totalSize {size : Nat} {sizes : List Nat} (h : size ∈ sizes) :
    size ≤ totalSize sizes := by
  rw [totalSize_perm (List.perm_cons_erase h), totalSize_cons]
  omega

theorem totalSize_sublist {a b : List Nat} (h : a.Sublist b) : totalSize a ≤ totalSize b := by
  induction h with
  | slnil => exact Nat.le_refl _
  | cons size _ ih =>
    rw [totalSize_cons]
    omega
  | cons_cons size _ ih =>
    rw [totalSize_cons, totalSize_cons]
    omega

/-- What an element counts for can be taken out of a sum. -/
theorem totalSize_split {ids : List Nat} (hd : ids.Nodup) (id : Nat) (f : Nat → Nat) :
    totalSize (ids.map f) =
      totalSize ((ids.filter (· ≠ id)).map f) + if id ∈ ids then f id else 0 := by
  induction ids with
  | nil => rfl
  | cons j ids ih =>
    obtain ⟨hj, hd⟩ := List.nodup_cons.mp hd
    rw [List.map_cons, totalSize_cons, ih hd]
    by_cases e : j = id
    · subst e
      simp [hj]
      omega
    · simp only [List.mem_cons, Ne.symm e, false_or, ne_eq, e, not_false_eq_true, decide_true,
        List.filter_cons_of_pos, List.map_cons, totalSize_cons]
      omega

theorem totalSize_filter (ids : List Nat) (kept : Nat → Bool) (f : Nat → Nat) :
    totalSize ((ids.filter kept).map f) =
      totalSize (ids.map fun id => if kept id then f id else 0) := by
  induction ids with
  | nil => rfl
  | cons j ids ih =>
    cases h : kept j <;> simp [h, totalSize_cons, ih]

namespace Night

variable {n m : Night} {id : Nat} {p : DiskPlan} {q : Option QueueName} {f : DiskPlan → Nat}

/-- The sum of what the scheduled records count for. -/
def sumBy (g : Nat → DiskPlan → Nat) (n : Night) : Nat :=
  totalSize (n.scheduled.map fun id => g id (n.plan id))

def sumOver (f : DiskPlan → Nat) (n : Night) : Nat :=
  totalSize (n.scheduled.map fun id => f (n.plan id))

def share (f : DiskPlan → Nat) (p : DiskPlan) (q : Option QueueName) : Nat :=
  if q = some .scheduled then f p else 0

theorem Sound.mem_scheduled (hs : n.Sound) :
    id ∈ n.scheduled ↔ n.place id = some .scheduled := by
  rw [hs.place_iff]
  rfl

theorem Sound.nodup_scheduled (hs : n.Sound) : n.scheduled.Nodup := hs.valid.nodup .scheduled

theorem sumBy_split (hs : n.Sound) (id : Nat) (g : Nat → DiskPlan → Nat) :
    sumBy g n = totalSize ((n.scheduled.filter (· ≠ id)).map fun id => g id (n.plan id)) +
      share (g id) (n.plan id) (n.place id) := by
  rw [sumBy, totalSize_split hs.nodup_scheduled id, share]
  congr 1
  by_cases h : n.place id = some .scheduled
  · rw [if_pos h, if_pos (hs.mem_scheduled.mpr h)]
  · rw [if_neg h, if_neg fun hm => h (hs.mem_scheduled.mp hm)]

/-- When something becomes of a record, the sum changes by what the record counts for. -/
theorem sumBy_becomes (hs : n.Sound) (hb : Becomes id p q n m) (g : Nat → DiskPlan → Nat) :
    sumBy g m + share (g id) (n.plan id) (n.place id) = sumBy g n + share (g id) p q := by
  have hothers : totalSize ((m.scheduled.filter (· ≠ id)).map fun id => g id (m.plan id)) =
      totalSize ((n.scheduled.filter (· ≠ id)).map fun id => g id (n.plan id)) := by
    have hperm : (m.scheduled.filter (· ≠ id)).Perm (n.scheduled.filter (· ≠ id)) := by
      refine (List.perm_ext_iff_of_nodup (hb.sound.nodup_scheduled.filter _)
        (hs.nodup_scheduled.filter _)).mpr fun j => ?_
      simp only [List.mem_filter, decide_eq_true_eq]
      refine and_congr_left fun hj => ?_
      show j ∈ m.scheduled ↔ j ∈ n.scheduled
      rw [hb.sound.mem_scheduled, hs.mem_scheduled, hb.only.place hj]
    refine (totalSize_perm (hperm.map _)).trans (congrArg totalSize ?_)
    refine List.map_congr_left fun j hj => ?_
    rw [hb.only.plan (of_decide_eq_true (List.mem_filter.mp hj).2)]
  have hm := sumBy_split hb.sound id g
  have hn := sumBy_split hs id g
  rw [hb.plan, hb.place] at hm
  omega

theorem sumOver_becomes (hs : n.Sound) (hb : Becomes id p q n m) (f : DiskPlan → Nat) :
    sumOver f m + share f (n.plan id) (n.place id) = sumOver f n + share f p q :=
  sumBy_becomes hs hb fun _ => f

/-- Nights with the same records on the schedule have the same sums. -/
theorem sumBy_congr {g : Nat → DiskPlan → Nat} (hs : n.Sound) (hm : m.Sound)
    (hplace : ∀ id, m.place id = some .scheduled ↔ n.place id = some .scheduled)
    (hg : ∀ id, n.place id = some .scheduled → g id (m.plan id) = g id (n.plan id)) :
    sumBy g m = sumBy g n := by
  have hperm : m.scheduled.Perm n.scheduled := by
    refine (List.perm_ext_iff_of_nodup hm.nodup_scheduled hs.nodup_scheduled).mpr fun j => ?_
    exact hm.mem_scheduled.trans ((hplace j).trans hs.mem_scheduled.symm)
  refine (totalSize_perm (hperm.map _)).trans (congrArg totalSize ?_)
  exact List.map_congr_left fun j hj => hg j (hs.mem_scheduled.mp hj)

theorem sumOver_congr (hs : n.Sound) (hm : m.Sound)
    (hplace : ∀ id, m.place id = some .scheduled ↔ n.place id = some .scheduled)
    (hf : ∀ id, n.place id = some .scheduled → f (m.plan id) = f (n.plan id)) :
    sumOver f m = sumOver f n :=
  sumBy_congr hs hm hplace hf

theorem le_sumOver (hs : n.Sound) (hp : n.place id = some .scheduled) (f : DiskPlan → Nat) :
    f (n.plan id) ≤ sumOver f n :=
  le_totalSize (List.mem_map_of_mem (hs.mem_scheduled.mpr hp))

/-! ## Exact accounts -/

/-- The running sizes are what the dumps of the schedule add up to. This is about the exact sums;
an overflow of a word is noted besides them. -/
structure Exact (n : Night) : Prop where
  size : n.totals.size = n.media.emptyTape +
    totalSize (n.scheduled.map fun id => n.media.dumpCost (n.plan id).dumpMediaSize)
  fullSize : n.totals.fullSize =
    totalSize ((n.scheduled.filter fun id => (n.plan id).isFull).map fun id =>
      (n.plan id).dumpMediaSize)

def fullShare (p : DiskPlan) : Nat := if p.isFull then p.dumpMediaSize else 0

theorem exact_iff : n.Exact ↔
    n.totals.size = n.media.emptyTape + sumOver (fun p => n.media.dumpCost p.dumpMediaSize) n ∧
      n.totals.fullSize = sumOver fullShare n := by
  have hfull : totalSize ((n.scheduled.filter fun id => (n.plan id).isFull).map fun id =>
      (n.plan id).dumpMediaSize) = sumOver fullShare n :=
    totalSize_filter n.scheduled (fun id => (n.plan id).isFull) fun id => (n.plan id).dumpMediaSize
  refine ⟨fun h => ⟨h.size, h.fullSize.trans hfull⟩, fun h => ⟨h.1, h.2.trans hfull.symm⟩⟩

/-- Nothing that is taken out of exact accounts is more than what is in them. -/
theorem Exact.no_clip (he : n.Exact) (hs : n.Sound) (hp : n.place id = some .scheduled) :
    n.media.dumpCost (n.plan id).dumpMediaSize ≤ n.totals.size ∧
      ((n.plan id).isFull = true → (n.plan id).dumpMediaSize ≤ n.totals.fullSize) := by
  obtain ⟨hsize, hfull⟩ := exact_iff.mp he
  have hcost := le_sumOver hs hp fun p => n.media.dumpCost p.dumpMediaSize
  have hshare := le_sumOver hs hp fullShare
  refine ⟨by omega, fun h => ?_⟩
  rw [fullShare, if_pos h] at hshare
  omega

/-! ## Other running sizes -/

def withTotals (n : Night) (t : Totals) : Night := { n with totals := t }

variable {t : Totals}

@[simp]
theorem totals_withTotals : (n.withTotals t).totals = t := rfl

@[simp]
theorem plan_withTotals : (n.withTotals t).plan id = n.plan id := rfl

@[simp]
theorem place_withTotals : (n.withTotals t).place id = n.place id := rfl

@[simp]
theorem media_withTotals : (n.withTotals t).media = n.media := rfl

theorem Sound.withTotals (hs : n.Sound) (t : Totals) : (n.withTotals t).Sound :=
  ⟨hs.valid, hs.registered⟩

theorem sameDisks_withTotals (n : Night) (t : Totals) : n.SameDisks (n.withTotals t) :=
  ⟨rfl, fun _ => rfl, fun _ => rfl, rfl, fun _ => rfl, fun _ => rfl⟩

/-- The running sizes may change before or after something becomes of a record. -/
theorem Becomes.withTotals (hb : Becomes id p q n m) (t : Totals) :
    Becomes id p q (n.withTotals t) (m.withTotals t) :=
  ⟨hb.lt, hb.sound.withTotals t, ⟨⟨hb.only.same.length, hb.only.same.owner, hb.only.same.diskName,
    hb.only.same.hosts, hb.only.same.hostName, hb.only.same.disks⟩, hb.only.plan, hb.only.place,
    hb.only.skips⟩, ⟨hb.alike.hosts, hb.alike.skipped, .refl, hb.alike.media⟩, hb.plan, hb.place⟩

/-- What becomes of a record together with new running sizes keeps the accounts exact if the
sizes change by what the record counts for. -/
theorem Exact.becomes (he : n.Exact) (hs : n.Sound) (hb : Becomes id p q (n.withTotals t) m)
    (hsize : t.size + share (fun p => n.media.dumpCost p.dumpMediaSize) (n.plan id) (n.place id) =
      n.totals.size + share (fun p => n.media.dumpCost p.dumpMediaSize) p q)
    (hfull : t.fullSize + share fullShare (n.plan id) (n.place id) =
      n.totals.fullSize + share fullShare p q) : m.Exact := by
  obtain ⟨hnsize, hnfull⟩ := exact_iff.mp he
  have hm : m.media = n.media := hb.alike.media
  have htsize : m.totals.size = t.size := hb.alike.totals.size
  have htfull : m.totals.fullSize = t.fullSize := hb.alike.totals.fullSize
  have hcost := sumOver_becomes (hs.withTotals t) hb fun p => n.media.dumpCost p.dumpMediaSize
  have hshare := sumOver_becomes (hs.withTotals t) hb fullShare
  have hsame : ∀ f, sumOver f (n.withTotals t) = sumOver f n := fun _ => rfl
  rw [hsame, plan_withTotals, place_withTotals] at hcost hshare
  refine exact_iff.mpr ⟨?_, ?_⟩
  · rw [hm, htsize]
    omega
  · rw [htfull]
    omega

end Night

end NightlyBackup
