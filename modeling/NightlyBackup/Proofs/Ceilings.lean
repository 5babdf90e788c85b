import NightlyBackup.Proofs.Balancing

/-!
Balancing and the bound on a single dump. A promotion looks at the room of the whole run and
not at what one disk may dump in it, so a full dump that fitting has put off as too big can
come back. What balancing leaves bounded is every dump but those: a record keeps the dump
that it had, or it gets its full dump, which is no bigger than the room of the run.
-/

namespace NightlyBackup

open Night Planning

variable {n m k : Night} {id slot : Nat} {p q r : DiskPlan}

/-! ## What balancing makes of a plan -/

/-- `q` is the plan `p`, but perhaps with the full dump in the place of its incremental. -/
structure DiskPlan.Raised (p q : DiskPlan) : Prop where
  disk : q.disk = p.disk
  mediaSize : ∀ slot, q.mediaSize? slot = p.mediaSize? slot
  level : ∀ slot, q.levelAt? slot = p.levelAt? slot
  dump : q.dump = p.dump ∨ ∃ slot, p.Candidate slot ∧ q.dump = some slot

namespace DiskPlan.Raised

theorem refl : p.Raised p := ⟨rfl, fun _ => rfl, fun _ => rfl, Or.inl rfl⟩

theorem trans (h : p.Raised q) (h' : q.Raised r) : p.Raised r := by
  refine ⟨h'.disk.trans h.disk, fun slot => (h'.mediaSize slot).trans (h.mediaSize slot),
    fun slot => (h'.level slot).trans (h.level slot), ?_⟩
  rcases h'.dump with hd | ⟨slot, hc, hd⟩
  · rw [hd]
    exact h.dump
  · rcases h.dump with hsame | ⟨other, hother, hq⟩
    · refine Or.inr ⟨slot, ⟨?_, ?_, ?_⟩, hd⟩
      · have hl : q.levelAt? = p.levelAt? := funext h.level
        rw [← hc.incremental, isFull, isFull, dumpLevel?_eq, dumpLevel?_eq, hsame, hl]
      · rw [← h.level, hc.full]
      · rw [Sized, ← h.mediaSize]
        exact hc.sized
    · -- a record that has its full dump is not promoted again
      have hfull : q.isFull = true := isFull_eq_of_dump hq ((h.level other).trans hother.full)
      cases hfull.symm.trans hc.incremental

theorem fixMedia : p.Raised (p.fixMedia slot) :=
  ⟨rfl, fun _ => mediaSize?_fixMedia, fun _ => levelAt?_fixMedia, Or.inl rfl⟩

theorem promoted (hc : p.Candidate slot) : p.Raised (p.promoted slot) :=
  ⟨rfl, fun _ => mediaSize?_fixMedia, fun _ => levelAt?_fixMedia, Or.inr ⟨slot, hc, rfl⟩⟩

end DiskPlan.Raised

theorem Rebalance.raised (h : Rebalance n k) (hn : n.Orderly) (j : Nat) :
    k.media = n.media ∧ (n.plan j).Raised (k.plan j) := by
  cases h with
  | @promoted _ id slot _ hp hc hact =>
    have hk := (leads_promote hn hp hc).reached hact
    refine ⟨hk.media, ?_⟩
    by_cases hj : j = id
    · subst hj
      rw [hk.plan]
      exact .promoted hc
    · rw [hk.others hj]
      exact .refl
  | looked id slot =>
    exact ⟨rfl, plan_setPlan_cases (P := fun p => (n.plan j).Raised p) .fixMedia .refl⟩
  | scored id score =>
    exact ⟨rfl, plan_setPlan_cases (P := fun p => (n.plan j).Raised p)
      ⟨rfl, fun _ => rfl, fun _ => rfl, Or.inl rfl⟩ .refl⟩
  | reckoned what => exact ⟨rfl, .refl⟩

theorem RoomyRebalances.raised (h : RoomyRebalances n k) (hn : n.Orderly) :
    k.media = n.media ∧ KeepsRoom n k ∧ ∀ j, (n.plan j).Raised (k.plan j) := by
  induction h with
  | refl => exact ⟨rfl, id, fun _ => .refl⟩
  | tail hsteps hstep ih =>
    obtain ⟨hmedia, hroom, hraised⟩ := ih
    have hm := ((RoomyRebalances.rebalances hsteps).balanced hn).orderly
    have hnext := hstep.1.raised hm
    refine ⟨(hnext 0).1.trans hmedia, fun hsize => ?_, fun j => (hraised j).trans (hnext j).2⟩
    rw [← hmedia]
    exact hstep.2 (by rw [hmedia]; exact hroom hsize)

/-! ## Dumps that stay bounded -/

/-- The full dump at `slot`, which a record could have in the place of its incremental, is
bigger than one run allows. -/
def Night.TooBig (n : Night) (id slot : Nat) : Prop :=
  (n.plan id).Candidate slot ∧
    n.media.ceiling (n.plan id).disk < ((n.plan id).mediaSize? slot).getD 0

/-- **Bounded dumps.** A schedule that has room on the media and whose dumps are not too big
for one run has room after balancing as well, and its dumps are not too big, but for full
dumps that were promoted although they are; the media have room even for these, unless the sums
by which it was judged overflow. -/
theorem balanced_within_ceilings (hn : n.Orderly) (hsize : n.totals.size ≤ n.media.capacity)
    (hbounded : ∀ id ∈ n.scheduled, n.Bounded id) :
    ∃ k, balance n = .ok () k ∧ k.totals.size ≤ n.media.capacity ∧
      ∀ id ∈ k.scheduled,
        (k.plan id).dumpMediaSize ≤ n.media.ceiling (k.plan id).disk ∨
          ((k.totals.overflow = none → (k.plan id).dumpMediaSize ≤ n.media.capacity) ∧
            ∃ slot, (k.plan id).dump = some slot ∧ n.TooBig id slot) := by
  obtain ⟨_, k, hrun, hk⟩ := (leads_balance_roomy hn).exists_ok
  have hbal := hk.rebalances.balanced hn
  obtain ⟨hmedia, hroom, hraised⟩ := hk.raised hn
  refine ⟨k, hrun, hroom hsize, fun id hid => ?_⟩
  have hp : k.place id = some .scheduled := hbal.orderly.sound.mem_scheduled.mp hid
  have hr := hraised id
  rw [hr.disk]
  rcases hr.dump with hd | ⟨slot, hc, hd⟩
  · left
    have hsame : (k.plan id).dumpMediaSize = (n.plan id).dumpMediaSize := by
      have hm : (k.plan id).mediaSize? = (n.plan id).mediaSize? := funext hr.mediaSize
      rw [DiskPlan.dumpMediaSize, DiskPlan.dumpMediaSize, hd, hm]
    rw [hsame]
    exact hbounded id (hn.sound.mem_scheduled.mpr ((hbal.place id).symm.trans hp))
  · have hfull : (k.plan id).dumpMediaSize = ((n.plan id).mediaSize? slot).getD 0 := by
      rw [DiskPlan.dumpMediaSize_of_dump hd, hr.mediaSize]
    rw [hfull]
    refine (Nat.lt_or_ge (n.media.ceiling (n.plan id).disk) _).symm.imp_right fun hbig => ?_
    refine ⟨fun _ => ?_, slot, hd, hc, hbig⟩
    have hcost := (hbal.orderly.exact.no_clip hbal.orderly.sound hp).1
    rw [hfull] at hcost
    have htotal := hroom hsize
    unfold Media.dumpCost at hcost
    omega

/-! ## Two overdue full dumps -/

def DiskPlan.putOff (full incr : Nat) (p : DiskPlan) : DiskPlan :=
  { p with
    levels := [{ level := 0, watermark := "", size := .sized full, media := some full },
      { level := 1, watermark := "", size := .sized incr, media := some incr }]
    dump := some 1
    degraded := some 1
    lastLevel := some 0
    lastFullSize := full }

theorem DiskPlan.putOff_planned (full incr : Nat) (p : DiskPlan) :
    (p.putOff full incr).Planned where
  sized := ⟨1, rfl, rfl⟩
  stands hd := by
    cases hd
    rintro e he
    cases he
    rfl
  fallback hd := by
    cases hd
    exact ⟨rfl, 1, rfl, Nat.one_pos⟩

def Night.putOff (n : Night) (id full incr : Nat) : Night :=
  (n.withQueues (n.queues.join .scheduled id)).setPlan id (·.putOff full incr)

theorem Night.Sound.putOff {full incr : Nat} (hs : n.Sound) (hid : id < n.plans.length)
    (hp : n.place id = none) : (n.putOff id full incr).Sound :=
  (hs.join hid hp).setPlan _

/-- Two disks on two tapes of 2000 KB. Neither of them can be split, so that full dumps of
3000 KB were put off. -/
def twoPutOff : Night :=
  match Night.begin { runTapes := 2 } [Disk.plain "alpha" "/home" 10 default,
    Disk.plain "beta" "/srv" 10 default] default 0 with
  | .ok n => ((n.putOff 0 3000 100).putOff 1 3000 100).withTotals { size := 332 }
  | .error _ => default

theorem twoPutOff_orderly : twoPutOff.Orderly := by
  obtain ⟨n, hbegin, h0, hp0, h1, hp1, htwo⟩ : ∃ n, Night.begin { runTapes := 2 }
      [Disk.plain "alpha" "/home" 10 default, Disk.plain "beta" "/srv" 10 default] default 0 =
        .ok n ∧
      0 < n.plans.length ∧ n.place 0 = none ∧ 1 < (n.putOff 0 3000 100).plans.length ∧
      (n.putOff 0 3000 100).place 1 = none ∧
      twoPutOff = ((n.putOff 0 3000 100).putOff 1 3000 100).withTotals { size := 332 } :=
    ⟨_, rfl, by decide, rfl, by decide, rfl, rfl⟩
  have hs : twoPutOff.Sound := by
    rw [htwo]
    exact (((fresh_of_begin hbegin).sound.putOff h0 hp0).putOff h1 hp1).withTotals _
  refine ⟨hs, fun {id} hp => ?_, by decide, by decide⟩
  have hid : id ∈ [0, 1] := hs.mem_scheduled.mpr hp
  rcases List.mem_cons.mp hid with rfl | hid
  · exact DiskPlan.putOff_planned 3000 100 _
  · cases List.mem_singleton.mp hid
    exact DiskPlan.putOff_planned 3000 100 _

theorem twoPutOff_bounded : ∀ id ∈ twoPutOff.scheduled, twoPutOff.Bounded id := by
  show ∀ id ∈ [0, 1], (twoPutOff.plan id).dumpMediaSize ≤
    twoPutOff.media.ceiling (twoPutOff.plan id).disk
  decide

/-- The schedule of the two incrementals has room after balancing. -/
theorem balanced_within_ceilings_of_two : twoPutOff.Orderly ∧
    twoPutOff.totals.size ≤ twoPutOff.media.capacity ∧
    (∀ id ∈ twoPutOff.scheduled, twoPutOff.Bounded id) ∧
    ∃ k, balance twoPutOff = .ok () k ∧ k.totals.size ≤ twoPutOff.media.capacity := by
  have hsize : twoPutOff.totals.size ≤ twoPutOff.media.capacity := by decide
  obtain ⟨k, hrun, hroom, -⟩ :=
    balanced_within_ceilings twoPutOff_orderly hsize twoPutOff_bounded
  exact ⟨twoPutOff_orderly, hsize, twoPutOff_bounded, k, hrun, hroom⟩

def Night.PastCeiling (n : Night) : Prop :=
  ∃ id ∈ n.scheduled, n.media.ceiling (n.plan id).disk < (n.plan id).dumpMediaSize

/-- The only hill is broken up if tonight has no full dump. -/
theorem leads_breakHill_of_one {n k : Night} {hill : Hill} {post : Bool → Night → Prop}
    (hh : hills n = [hill]) (hf : n.totals.fullSize = 0)
    (ho : sizesOverflow? ((hillDays n).map (heightOf n)) = none)
    (hk : breakUp [hill] n = .ok true k) (hp : post true k) : Leads breakHill n post never := by
  simp only [breakHill, leads_bind, leads_get, hf, hh, List.mergeSort_singleton]
  rw [if_neg (by decide), leads_bind, leads_reckon, ho, reckon_none]
  exact leads_of_ok hk hp

/-- Balancing brings back a full dump that was put off because it is too big for one run. -/
theorem balance_past_ceiling : twoPutOff.Orderly ∧
    twoPutOff.totals.size ≤ twoPutOff.media.capacity ∧
    (∀ id ∈ twoPutOff.scheduled, twoPutOff.Bounded id) ∧
    ∃ k, balance twoPutOff = .ok () k ∧ k.PastCeiling := by
  refine ⟨twoPutOff_orderly, by decide, twoPutOff_bounded, ?_⟩
  have hrun : Leads balance twoPutOff (fun _ k => k.PastCeiling) never := by
    simp only [balance, promoteWhileWanted, leads_bind, leads_get]
    split
    · -- a full dump that is due already is no candidate, so that only notes are made
      obtain ⟨m, hbest, hhills, hfulls, hheights, k, hk, hpast⟩ : ∃ m,
          promoteBest twoPutOff = .ok false m ∧ hills m = [⟨0, 6000⟩] ∧ m.totals.fullSize = 0 ∧
          sizesOverflow? ((hillDays m).map (heightOf m)) = none ∧
          ∃ k, breakUp [⟨0, 6000⟩] m = .ok true k ∧ k.PastCeiling :=
        ⟨_, rfl, by decide, rfl, by decide, _, rfl, 0, by decide, by decide⟩
      rw [leads_bind, leads_iff_of_ok hbest]
      exact leads_breakHill_of_one hhills hfulls hheights hk hpast
    · obtain ⟨k, hk, hpast⟩ : ∃ k, breakUp [⟨0, 6000⟩] twoPutOff = .ok true k ∧ k.PastCeiling :=
        ⟨_, rfl, 0, by decide, by decide⟩
      exact leads_breakHill_of_one (by decide) rfl (by decide) hk hpast
  obtain ⟨_, k, hk, hpast⟩ := hrun.exists_ok
  exact ⟨k, hk, hpast⟩

end NightlyBackup
