import NightlyBackup.Proofs.Balancing

/-!
What balancing adds up. Breaking up a hill adds up the full dumps that come on one day, and the
schedule with one more full dump; if these sums fit their word, then nothing overflows. From a
schedule without candidates for a promotion only the first kind of sums is made.
-/

namespace NightlyBackup

open Night Planning

variable {n m k : Night} {id slot : Nat} {ids : List Nat} {best : Option (Nat × Nat)}
  {special : Bool} {fail : Fault → Night → Prop}

/-- What is added up to break up a hill fits its word: the full dumps that come on each day, and
the schedule with the full dump of any record that is eligible. -/
structure Night.HillsFit (n : Night) : Prop where
  heights : ∀ day ∈ hillDays n, IntWord.unsigned64.Holds (heightOf n day)
  sums : ∀ id ∈ n.scheduled, ∀ slot, (n.plan id).Eligible slot →
    IntWord.unsigned64.Holds ((n.totals.size + ((n.plan id).mediaSize? slot).getD 0 : Nat) : Int)

/-- A plan that could not have a full dump instead of an incremental. -/
def DiskPlan.Barred (p : DiskPlan) : Prop := p.isFull = true ∨ p.positiveSlot? 0 = none

instance (p : DiskPlan) : Decidable p.Barred := inferInstanceAs (Decidable (_ ∨ _))

theorem DiskPlan.Noted.barred {p q : DiskPlan} (h : p.Noted q) (hp : p.Barred) : q.Barred := by
  rw [Barred, h.isFull, h.positiveSlot?]
  exact hp

/-- No scheduled record is a candidate, and the full dumps that come on one day can be added up. -/
structure Night.AtRest (n : Night) : Prop where
  barred : ∀ id ∈ n.scheduled, (n.plan id).Barred
  heights : sizesOverflow? ((hillDays n).map (heightOf n)) = none

namespace Noted

theorem scheduled (hk : Noted n k) : k.scheduled = n.scheduled := by
  rw [hk.rest]
  rfl

theorem heightOf (hk : Noted n k) (day : Nat) :
    Planning.heightOf k day = Planning.heightOf n day := by
  have hplan : ∀ id, (k.plan id).disk = (n.plan id).disk ∧
      dueDay k id = dueDay n id ∧ (k.plan id).lastFullSize = (n.plan id).lastFullSize := by
    intro id
    refine ⟨(hk.plan id).disk, congrArg Int.toNat (hk.plan id).nextFull, ?_⟩
    rw [DiskPlan.lastFullSize, (hk.plan id).same, DiskPlan.lastFullSize]
  simp only [Planning.heightOf, dueOn, hk.scheduled, hplan]

theorem hillDays (hk : Noted n k) : Planning.hillDays k = Planning.hillDays n := by
  rw [hk.rest]
  rfl

theorem hillsFit (hk : Noted n k) (h : n.HillsFit) : k.HillsFit where
  heights day hday := by
    rw [hk.heightOf]
    exact h.heights day (hk.hillDays ▸ hday)
  sums id hid slot he := by
    rw [hk.totals.size, (hk.plan id).media]
    exact h.sums id (hk.scheduled ▸ hid) slot (he.noted (hk.plan id).symm)

theorem atRest (hk : Noted n k) (h : n.AtRest) : k.AtRest where
  barred id hid := (hk.plan id).barred (h.barred id (hk.scheduled ▸ hid))
  heights := by
    rw [hk.hillDays, funext hk.heightOf]
    exact h.heights

end Noted

namespace Planning

/-! ## Hills -/

theorem keeps_fullCandidate : Keeps Night.totals (fullCandidate id) := by
  refine (keeps_get.bind fun _ => keeps_pure _).bind fun p => ?_
  split
  · exact keeps_pure none
  · split
    · exact keeps_pure none
    · exact aside_totals.keeps_mediaSize?.bind fun _ => keeps_pure _

/-- Looking for a record to promote adds up nothing that does not fit. -/
theorem totals_findOnHill (day : Nat) (hn : n.Orderly) (hfit : n.HillsFit)
    (hids : ∀ id ∈ ids, id ∈ n.scheduled) :
    Leads (findOnHill day ids) n (fun _ k => k.totals = n.totals) anyhow := by
  induction ids generalizing n with
  | nil => exact rfl
  | cons id ids ih =>
    obtain ⟨hid, hids⟩ := List.forall_mem_cons.mp hids
    have hrest : ∀ {m}, Noted n m → m.totals = n.totals →
        Leads (findOnHill day ids) m (fun _ k => k.totals = n.totals) anyhow := by
      intro m hm htotals
      rw [← htotals]
      exact ih (hm.balanced hn).orderly (hm.hillsFit hfit) fun j hj => hm.scheduled ▸ hids j hj
    simp only [findOnHill, getPlan, leads_bind, leads_get, leads_pure]
    split
    · exact hrest .refl rfl
    · rename_i hon
      rw [leads_bind]
      refine ((leads_fullCandidate id : Leads _ _ _ never).and (keeps_fullCandidate n)).mono ?_
        fun _ _ _ => trivial
      rintro found m ⟨⟨hm, hfound, -⟩, htotals⟩
      cases found with
      | none => exact hrest hm htotals
      | some found =>
        obtain ⟨slot, full⟩ := found
        obtain ⟨hinc, hslot, hfull⟩ := hfound slot full rfl
        have hmid := hm.scheduled ▸ hid
        have hmorder := (hm.balanced hn).orderly
        have he : (m.plan id).Eligible slot := by
          refine ⟨hinc, hslot, ?_⟩
          rw [(hm.plan id).nextFull, (hm.plan id).disk]
          omega
        have hsum : sizesOverflow? [m.totals.size + full] = none := by
          have hholds := (hm.hillsFit hfit).sums id hmid slot he
          simpa [hfull] using hholds
        have hplanned := hmorder.planned (hmorder.sound.mem_scheduled.mp hmid)
        simp only [leads_bind, leads_iff_of_ok (dumpMediaSize_ok hplanned), leads_get,
          leads_reckon, hsum, Night.reckon_none]
        split
        · exact hrest hm htotals
        · exact htotals

/-- What a promotion adds up. -/
theorem overflow_promote (hn : n.Orderly) (hp : n.place id = some .scheduled) :
    Leads (promote id slot special) n (fun _ k => k.totals.overflow = n.totals.overflow.or
      (sizesOverflow? (sizesWith n (((n.plan id).mediaSize? slot).getD 0)))) anyhow := by
  have hmedia : ((n.setPlan id (·.fixMedia slot)).plan id).mediaSize? slot =
      (n.plan id).mediaSize? slot := by
    rw [plan_setPlan_self (hn.sound.lt_of_place hp), DiskPlan.mediaSize?_fixMedia]
  simp only [promote, getPlan, mediaSize?, Planning.setPlan, leads_bind, leads_get, leads_pure,
    leads_modify, leads_iff_of_ok (dumpMediaSize_ok (hn.planned hp)), hmedia]
  refine (aside_totals.keeps_resortScheduled _).mono (fun _ k hk => ?_) fun _ _ _ => trivial
  exact congrArg Totals.overflow hk

theorem overflow_breakUp (hills : List Hill) (hn : n.Orderly) (hfit : n.HillsFit)
    (hfull : n.totals.fullSize = 0) :
    Leads (breakUp hills) n (fun _ k => k.totals.overflow = n.totals.overflow) anyhow := by
  induction hills generalizing n with
  | nil => exact rfl
  | cons hill hills ih =>
    have hscheduled : ∀ id ∈ n.scheduled, n.place id = some .scheduled :=
      fun id => hn.sound.mem_scheduled.mp
    simp only [breakUp, leads_bind, leads_get]
    refine ((leads_findOnHill hill.day hn hscheduled : Leads _ _ _ never).and
      (totals_findOnHill hill.day hn hfit fun _ => id)).mono ?_ fun _ _ _ => trivial
    rintro found m ⟨⟨hm, -, hfound⟩, htotals⟩
    have hmorder := (hm.balanced hn).orderly
    have hmfit := hm.hillsFit hfit
    cases found with
    | none =>
      rw [← htotals]
      exact ih hmorder hmfit (htotals ▸ hfull)
    | some found =>
      obtain ⟨id, slot⟩ := found
      obtain ⟨hp, he, -⟩ := hfound id slot rfl
      rw [leads_bind]
      refine (overflow_promote hmorder hp).imp fun _ k hk => ?_
      have hsum := hmfit.sums id (hmorder.sound.mem_scheduled.mpr hp) slot he
      have hsums : sizesOverflow? (sizesWith m (((m.plan id).mediaSize? slot).getD 0)) = none := by
        have hle : m.totals.fullSize + ((m.plan id).mediaSize? slot).getD 0 ≤
            m.totals.size + ((m.plan id).mediaSize? slot).getD 0 := by
          rw [htotals, hfull]
          omega
        simpa [sizesWith] using ⟨hsum, IntWord.holds_of_le hsum hle⟩
      rw [leads_pure, hk, hsums, Option.or_none, htotals]

/-- **Breaking up a hill overflows nothing**, if its sums fit. -/
theorem overflow_breakHill (hn : n.Orderly) (hfit : n.HillsFit) :
    Leads breakHill n (fun _ k => k.totals.overflow = n.totals.overflow) anyhow := by
  simp only [breakHill, leads_bind, leads_get]
  split
  · exact rfl
  · rename_i hfull
    have hheights : sizesOverflow? ((hillDays n).map (heightOf n)) = none := by
      simpa using hfit.heights
    rw [leads_bind, leads_reckon, hheights, Night.reckon_none]
    exact overflow_breakUp _ hn hfit (Nat.eq_zero_of_not_pos hfull)

/-! ## Schedules without candidates -/

theorem fullCandidate_barred (h : (n.plan id).Barred) : fullCandidate id n = .ok none n := by
  have hrun : Leads (fullCandidate id) n (fun found k => found = none ∧ k = n) never := by
    simp only [fullCandidate, getPlan, leads_bind, leads_get, leads_pure]
    rcases h with hfull | hnone
    · rw [if_pos hfull]
      exact ⟨rfl, rfl⟩
    · rw [hnone]
      split <;> exact ⟨rfl, rfl⟩
  obtain ⟨_, _, hrun, rfl, rfl⟩ := hrun.exists_ok
  exact hrun

theorem leads_consider_barred (h : (n.plan id).Barred) :
    Leads (consider best id) n (fun found k => found = best ∧ Noted n k ∧ k.totals = n.totals)
      fail := by
  have hscored : Noted n (n.setPlan id fun p => { p with promote := -1000 }) := .scored id _
  simp only [consider, Planning.setPlan, leads_bind, leads_modify,
    leads_iff_of_ok (fullCandidate_barred ((hscored.plan id).barred h))]
  exact ⟨rfl, hscored, rfl⟩

theorem leads_promoteBest_atRest (h : n.AtRest) :
    Leads promoteBest n (fun again k => again = false ∧ Noted n k ∧ k.totals = n.totals) fail := by
  simp only [promoteBest, leads_bind, leads_get]
  refine (leads_foldlM_keeps
    (I := fun best k => best = none ∧ Noted n k ∧ k.totals = n.totals) ?_
    ⟨rfl, .refl, rfl⟩).imp ?_
  · rintro id hid best k ⟨rfl, hk, htotals⟩
    refine (leads_consider_barred ((hk.plan id).barred (h.barred id hid))).imp ?_
    rintro best l ⟨rfl, hl, hsame⟩
    exact ⟨rfl, hk.trans hl, hsame.trans htotals⟩
  · rintro best k ⟨rfl, hk⟩
    exact ⟨rfl, hk⟩

theorem leads_promoteWhileWanted_atRest (rounds : Nat) (h : n.AtRest) :
    Leads (promoteWhileWanted rounds) n (fun _ k => Noted n k ∧ k.totals = n.totals) fail := by
  cases rounds with
  | zero => exact ⟨.refl, rfl⟩
  | succ rounds =>
    simp only [promoteWhileWanted, leads_bind, leads_get]
    split
    · rw [leads_bind]
      refine (leads_promoteBest_atRest h).imp ?_
      rintro again k ⟨rfl, hk⟩
      exact hk
    · exact ⟨.refl, rfl⟩

theorem leads_findOnHill_barred (day : Nat) (h : ∀ id ∈ ids, (n.plan id).Barred) :
    Leads (findOnHill day ids) n (fun found k => found = none ∧ k = n) fail := by
  induction ids with
  | nil => exact ⟨rfl, rfl⟩
  | cons id ids ih =>
    obtain ⟨hid, hids⟩ := List.forall_mem_cons.mp h
    simp only [findOnHill, getPlan, leads_bind, leads_get, leads_pure]
    split
    · exact ih hids
    · rw [leads_bind, leads_iff_of_ok (fullCandidate_barred hid)]
      exact ih hids

theorem leads_breakUp_barred (hills : List Hill) (h : ∀ id ∈ n.scheduled, (n.plan id).Barred) :
    Leads (breakUp hills) n (fun again k => again = false ∧ k = n) fail := by
  induction hills with
  | nil => exact ⟨rfl, rfl⟩
  | cons hill hills ih =>
    simp only [breakUp, leads_bind, leads_get]
    refine (leads_findOnHill_barred hill.day h).imp ?_
    rintro found k ⟨rfl, rfl⟩
    exact ih

/-- Balancing only makes notes. -/
theorem leads_balance_atRest (h : n.AtRest) :
    Leads balance n (fun _ k => Noted n k ∧ k.totals = n.totals) fail := by
  simp only [balance, breakHill, leads_bind, leads_get, leads_pure]
  refine (leads_promoteWhileWanted_atRest _ h).imp ?_
  rintro _ k ⟨hk, htotals⟩
  have hrest := hk.atRest h
  split
  · exact ⟨hk, htotals⟩
  · rw [leads_bind, leads_reckon, hrest.heights, Night.reckon_none]
    refine (leads_breakUp_barred _ hrest.barred).imp ?_
    rintro _ _ ⟨-, rfl⟩
    exact ⟨hk, htotals⟩

end Planning

end NightlyBackup
