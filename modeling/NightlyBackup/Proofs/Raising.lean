import NightlyBackup.Proofs.Answers
import NightlyBackup.Proofs.Arrivals
import NightlyBackup.Proofs.Incrementals
import NightlyBackup.Proofs.Promoting

/-!
Moving up a level. The incremental of a disk stays at the level of the last one unless there were
enough runs at this level and the next one saves more than the threshold. It does not matter on
which way the incremental is chosen, and the operator hears of each move once.
-/

namespace NightlyBackup

open Night Planning

variable {n m k g : Night} {id last size level slot : Nat} {ids : List Nat} {p : DiskPlan}
  {act : Planning Unit}

/-! ## The incremental that suits a disk -/

namespace DiskPlan

/-- To move up from level `last` pays: there is a level to move up to, there were enough runs at
this one, and the next one saves more than the threshold of `size`. -/
def Pays (p : DiskPlan) (last size : Nat) : Prop :=
  last < levelLimit - 1 ∧ p.disk.bump.days ≤ p.levelDays ∧
    ∃ next ∈ p.nativeSizeAt? (last + 1), p.disk.bump.threshold last p.fullSize < size ∧
      next + p.disk.bump.threshold last p.fullSize < size

instance (p : DiskPlan) (last size : Nat) : Decidable (p.Pays last size) :=
  inferInstanceAs (Decidable (_ ∧ _ ∧ _))

def incrementalLevel (p : DiskPlan) (last size : Nat) : Nat :=
  if p.Pays last size then last + 1 else last

def fallbackLevel? (p : DiskPlan) : Option Nat := p.degraded.bind p.levelAt?

theorem nativeSizeAt?_eq_some : p.nativeSizeAt? level = some size ↔
    ∃ slot, p.sizedSlot? level = some slot ∧ p.nativeSize? slot = some size :=
  Option.bind_eq_some_iff

theorem nativeSizeAt?_isSome : (p.nativeSizeAt? level).isSome ↔ (p.sizedSlot? level).isSome := by
  constructor
  · intro h
    obtain ⟨size, hsize⟩ := Option.isSome_iff_exists.mp h
    obtain ⟨slot, hslot, -⟩ := nativeSizeAt?_eq_some.mp hsize
    exact Option.isSome_iff_exists.mpr ⟨slot, hslot⟩
  · intro h
    obtain ⟨slot, hslot⟩ := Option.isSome_iff_exists.mp h
    obtain ⟨e, kb, he, hkb⟩ := (sized_of_sizedSlot? hslot).1.exists_estimate
    refine Option.isSome_iff_exists.mpr ⟨kb, nativeSizeAt?_eq_some.mpr ⟨slot, hslot, ?_⟩⟩
    simp [nativeSize?, he, SizeEstimate.kb?, hkb]

theorem pickRaised_of_pays {base : Nat} (hnative : p.nativeSize? base = some size)
    (hpays : p.Pays last size) : ∃ next, p.sizedSlot? (last + 1) = some next ∧
      p.pickRaised last base = .raised next (last + 1) := by
  obtain ⟨hroom, hdays, saved, hsaved, hbig, hsaves⟩ := hpays
  obtain ⟨next, hnext, hsaved⟩ := nativeSizeAt?_eq_some.mp hsaved
  have hmoves : ¬p.staysAt last base := by
    rw [staysAt, hnative, Option.getD_some]
    omega
  refine ⟨next, hnext, ?_⟩
  simp only [pickRaised, hnative, Option.getD_some]
  rw [if_neg hmoves, hnext]
  simp only [hsaved, Option.getD_some]
  rw [if_neg (by omega)]

theorem pickRaised_of_not_pays {base : Nat} (hnative : p.nativeSize? base = some size)
    (hlimit : (p.sizedSlot? (last + 1)).isSome → last + 1 < levelLimit)
    (hpays : ¬p.Pays last size) : p.pickRaised last base = .usable base := by
  simp only [pickRaised, hnative, Option.getD_some]
  split
  · rfl
  · rename_i hmoves
    rw [staysAt, hnative, Option.getD_some] at hmoves
    split
    · rfl
    · rename_i next hnext
      have hsized : (p.sizedSlot? (last + 1)).isSome := Option.isSome_iff_exists.mpr ⟨_, hnext⟩
      obtain ⟨saved, hsaved⟩ := Option.isSome_iff_exists.mp (nativeSizeAt?_isSome.mpr hsized)
      obtain ⟨next', hnext', hnative'⟩ := nativeSizeAt?_eq_some.mp hsaved
      cases hnext.symm.trans hnext'
      have hroom := hlimit hsized
      split
      · rfl
      · rename_i hsaves
        rw [hnative', Option.getD_some] at hsaves
        exact absurd ⟨by omega, by omega, saved, hsaved, by omega, by omega⟩ hpays

/-- Where the next level is not past the limit, the incremental goes by what pays. -/
theorem exists_pick (hlast : p.lastLevel = some last) (hpos : 1 ≤ last)
    (hstrategy : p.disk.strategy ≠ .noFull) (hsize : p.nativeSizeAt? last = some size)
    (hlimit : (p.sizedSlot? (last + 1)).isSome → last + 1 < levelLimit) :
    ∃ slot, p.levelAt? slot = some (p.incrementalLevel last size) ∧
      p.pickIncremental = if p.Pays last size then .raised slot (last + 1) else .usable slot := by
  obtain ⟨base, hbase, hnative⟩ := nativeSizeAt?_eq_some.mp hsize
  have hne : ¬(last = 0 ∨ p.disk.strategy = .noFull) :=
    not_or.mpr ⟨Nat.ne_of_gt hpos, hstrategy⟩
  have hpick : p.pickIncremental = p.pickRaised last base := by
    simp only [pickIncremental, hlast]
    rw [if_neg hne, hbase]
  rw [hpick, incrementalLevel]
  by_cases hpays : p.Pays last size
  · obtain ⟨next, hnext, hraised⟩ := pickRaised_of_pays hnative hpays
    refine ⟨next, ?_, by rw [if_pos hpays, hraised]⟩
    rw [if_pos hpays]
    exact (sized_of_sizedSlot? hnext).2
  · refine ⟨base, ?_, by rw [if_neg hpays, pickRaised_of_not_pays hnative hlimit hpays]⟩
    rw [if_neg hpays]
    exact (sized_of_sizedSlot? hbase).2

/-! ## The ways on which it is chosen -/

theorem isDue_iff_of_incremental (hlast : p.lastLevel = some last) (hpos : 1 ≤ last) :
    p.isDue = true ↔ p.nextFull ≤ 0 := by
  have hne : last ≠ 0 := Nat.ne_of_gt hpos
  simp [isDue, hlast, hne]

theorem resolve_eq_of_slot? {pick : Pick} (h : pick.slot? = some slot) :
    p.resolve pick = some slot := by
  cases pick with
  | usable other | raised other level => exact h
  | unmeasured level => cases h
  | missing => cases h

/-- With no full dump tonight, what is picked is dumped. -/
theorem choose_of_pick (hlast : p.lastLevel = some last) (hpos : 1 ≤ last)
    (hslot : p.pickIncremental.slot? = some slot)
    (hfull : 0 < p.nextFull ∨ p.nativeSizeAt? 0 = none) :
    p.choose.dump = some slot ∧ p.choose.pick = some p.pickIncremental := by
  unfold choose
  split
  · rename_i hdue
    have hdue := (isDue_iff_of_incremental hlast hpos).mp hdue
    have hunsized : ¬(p.sizedSlot? 0).isSome := by
      rw [← nativeSizeAt?_isSome, hfull.resolve_left (by omega)]
      decide
    rw [Option.not_isSome_iff_eq_none.mp hunsized]
    exact ⟨resolve_eq_of_slot? hslot, rfl⟩
  · rw [hslot]
    exact ⟨rfl, rfl⟩

/-- With a full dump tonight, a disk that takes incrementals falls back to what is picked. -/
theorem choose_of_full (hlast : p.lastLevel = some last) (hpos : 1 ≤ last)
    (hslot : p.pickIncremental.slot? = some slot) (hlevel : p.levelAt? slot = some level)
    (hincr : 0 < level) (hdue : p.nextFull ≤ 0) (hsized : (p.nativeSizeAt? 0).isSome)
    (hskip : p.disk.skipIncr = false) :
    ∃ full, p.levelAt? full = some 0 ∧ p.choose.dump = some full ∧
      p.choose.degraded = some slot ∧ p.choose.pick = some p.pickIncremental := by
  obtain ⟨full, hfull⟩ := Option.isSome_iff_exists.mp (nativeSizeAt?_isSome.mp hsized)
  have hchosen : p.choose = p.chooseFallback full := by
    rw [choose, if_pos ((isDue_iff_of_incremental hlast hpos).mpr hdue), hfull]
  have hknown : ¬(p.isNew || p.disk.skipIncr) = true := by simp [isNew, hlast, hskip]
  have hplaced : (p.levels[slot]?.map (·.level)).getD 0 > 0 := by
    have : (p.levelAt? slot).getD 0 > 0 := by rwa [hlevel]
    exact this
  rw [hchosen, chooseFallback, if_neg hknown]
  refine ⟨full, (sized_of_sizedSlot? hfull).2, rfl, ?_, rfl⟩
  simp [resolve_eq_of_slot? hslot, Option.filter, hplaced]

/-- Analysis enters what was chosen, and leaves the levels. -/
theorem analysed_of_chosen (h : p.choose.dump.isSome) : p.analysed.dump = p.choose.dump ∧
    p.analysed.degraded = p.choose.degraded ∧ p.analysed.levelAt? = p.levelAt? := by
  obtain ⟨slot, hslot⟩ := Option.isSome_iff_exists.mp h
  have hdump : (takeChoice p.choose p).dump = some slot := hslot
  rw [analysed, if_pos h, fixDumpMedia_of_dump hdump, fixFullMedia]
  split
  · split
    · exact ⟨rfl, rfl, funext fun _ => levelAt?_fixMedia.trans levelAt?_fixMedia⟩
    · exact ⟨rfl, rfl, funext fun _ => levelAt?_fixMedia⟩
  · exact ⟨rfl, rfl, funext fun _ => levelAt?_fixMedia⟩

end DiskPlan

/-! ## A level that has no number -/

namespace DiskPlan

/-- To pick the incremental after dumps at level `last` the next level is looked at, although no
word holds its number. -/
def Overruns (p : DiskPlan) (last : Nat) : Prop :=
  p.looksAbove last = true ∧ ¬IntWord.unsigned32.Holds ((last + 1 : Nat) : Int)

theorem choiceOverflow?_of_overruns (hlast : p.lastLevel = some last) (h : p.Overruns last)
    (hpicked : 0 < p.nextFull ∨ p.nativeSizeAt? 0 = none ∨ p.disk.skipIncr = false) :
    p.choiceOverflow?.isSome := by
  obtain ⟨hlooks, hover⟩ := h
  have hpos : 1 ≤ last := by
    refine Nat.pos_of_ne_zero fun hzero => ?_
    simp [looksAbove, hzero] at hlooks
  have hpick : ¬(p.isDue && (p.sizedSlot? 0).isSome && (p.isNew || p.disk.skipIncr)) = true := by
    rw [Bool.and_eq_true, Bool.and_eq_true, isDue_iff_of_incremental hlast hpos,
      ← nativeSizeAt?_isSome]
    rintro ⟨⟨hdue, hsized⟩, hskip⟩
    rcases hpicked with hlater | hnone | hincr
    · omega
    · simp [hnone] at hsized
    · simp [isNew, hlast, hincr] at hskip
  rw [choiceOverflow?, if_neg hpick, aboveOverflow?, hlast, Option.filter_some, hlooks,
    Bool.true_or, if_pos rfl, Option.bind_some, Option.isSome_iff_ne_none]
  exact fun hnone => hover (IntWord.check_eq_none.mp hnone)

end DiskPlan

namespace Planning

theorem overflow_analyze (id : Nat) (n : Night) : Leads (analyze id) n
    (fun _ k => k.totals.overflow = none → (n.plan id).choiceOverflow? = none) anyhow := by
  simp only [analyze, getPlan, leads_bind, leads_get, leads_pure, leads_reckon]
  refine (within_scheduleChosen _ _).mono (fun _ k hk hwords => ?_) fun _ _ _ => trivial
  exact (Totals.overflow_reckon (hk.totals.overflow hwords)).2

theorem overflow_analyzeNext (id : Nat) (n : Night) : Leads (analyzeNext id) n
    (fun _ k => k.totals.overflow = none → (n.plan id).choiceOverflow? = none) anyhow := by
  simp only [analyzeNext, leads_bind, remove, onQueues, leads_get]
  split
  · rw [leads_modify]
    exact overflow_analyze id _
  · trivial

/-- If nothing has overflowed in the end, no choice has. -/
theorem overflow_analyzeAll (hs : g.Sound) (he : g.scheduled = []) :
    Leads analyzeAll g (fun _ a => a.totals.overflow = none →
      ∀ id ∈ g.queues.estimated, (g.plan id).choiceOverflow? = none) anyhow := by
  simp only [analyzeAll, leads_bind, leads_modify, leads_get]
  have hempty := empty_orderly hs he (t := (countNothing g).totals) rfl rfl
  refine (leads_forM_each (I := Night.Orderly)
    (P := fun j m => m.place j = some .estimated ∧ m.plan j = g.plan j)
    (Q := fun j m => m.totals.overflow = none → (g.plan j).choiceOverflow? = none)
    (hs.valid.nodup .estimated) ?_ hempty fun j hj => ⟨hs.place_iff.mpr hj, rfl⟩).imp ?_
  · rintro id - m hm ⟨hp, hplan⟩
    refine (((leads_analyzeNext hm hp : Leads _ _ _ anyhow).and
      (leads_analyzeNext_arrives hm hp : Leads _ _ _ anyhow)).and
      ((overflow_analyzeNext id m).and (within_analyzeNext m))).mono ?_ fun _ _ _ => trivial
    rintro _ k ⟨⟨hanalysed, ha⟩, hchoice, hsteps⟩
    refine ⟨(hanalysed.orderly hm hp).1, hplan ▸ hchoice, fun j _ hne => ⟨?_, ?_⟩⟩
    · rintro ⟨hpj, hplanj⟩
      rw [ha.place, ha.plan, if_neg hne, if_neg hne]
      exact ⟨hpj, hplanj⟩
    · exact fun hj hwords => hj (hsteps.totals.overflow hwords)
  · rintro _ k ⟨-, hall⟩ hwords id hid
    exact hall id hid hwords

end Planning

/-! ## The next level -/

namespace Outlook

variable {o : Outlook}

/-- The level above the last one is asked for only within the limit. -/
theorem next_below_of_chooseLevels (hw : o.wanted = []) {runs : Nat}
    (hlast : (o.chooseLevels runs).lastLevel = some last) (hpos : 1 ≤ last)
    (hm : last + 1 ∈ (o.chooseLevels runs).wanted) : last + 1 < levelLimit := by
  revert hlast hm
  refine chooseLevels_cases o runs (fun _ _ reason _ hm => ?_) (fun hfull _ hm => ?_)
    fun {asked} hfull _ _ hlast hm => ?_
  · have hlevel1 : last + 1 ∈ o.wanted ++ [1] := hm
    rw [hw, List.nil_append, List.mem_singleton] at hlevel1
    omega
  · have h0 := (hfull.adds.wanted _ hm).resolve_left (by simp [hw])
    omega
  · have hnone : last + 1 ∉ asked.wanted := fun hmem => by
      have h0 := (hfull.adds.wanted _ hmem).resolve_left (by simp [hw])
      omega
    unfold wantIncrementals at hlast hm
    split at hlast
    · rename_i hl
      dsimp only at hlast
      split at hlast
      · cases hl.symm.trans hlast
      · cases hl.symm.trans hlast
    · rename_i l hl
      rw [hl] at hm
      have hadds := adds_incrementals asked l runs
      cases (hadds.lastLevel.trans hl).symm.trans hlast
      obtain ⟨hsame | ⟨-, hlimit⟩, -⟩ := (hadds.wanted _ hm).resolve_left hnone
      · omega
      · exact hlimit

end Outlook

theorem LaidDown.next_below {d : Disk} {h : History} {t : Terms} (hl : LaidDown d h t)
    (hlast : t.lastLevel = some last) (hpos : 1 ≤ last) (hm : last + 1 ∈ t.levels.map (·.1)) :
    last + 1 < levelLimit := by
  obtain ⟨s, r, today, o, levels, hj, rfl⟩ := hl
  obtain ⟨trusted, runs, ht, rfl, rfl⟩ := Outlook.chosen_of_judge (Outlook.fits_ofHistory ..) hj
  have hlevel : last + 1 ∈
      (Outlook.dropRepeats (trusted.chooseLevels runs).wanted).take maxLevels := by
    simpa [Function.comp_def] using hm
  exact Outlook.next_below_of_chooseLevels ht.wanted hlast hpos
    (Outlook.mem_of_mem_dropRepeats (List.mem_of_mem_take hlevel))

/-! ## What the operator hears -/

def Night.moves (n : Night) (id : Nat) : Option Pick → List Event
  | some (.raised _ level) => [.bumped (n.hostName id) (n.diskName id) level]
  | _ => []

/-- What is said about a disk that is analysed: that it moves up, if it does, and warnings. -/
def Night.Remarks (n : Night) (id : Nat) (said : List Event) : Prop :=
  ∃ warnings : List String, said = n.moves id (n.plan id).choose.pick ++ warnings.map .warning

theorem Night.SameDisks.moves (h : n.SameDisks m) (id : Nat) (pick : Option Pick) :
    m.moves id pick = n.moves id pick := by
  have hhost : m.hostName id = n.hostName id := by
    simp only [Night.hostName, h.owner, h.hostName]
  have hdisk : m.diskName id = n.diskName id := h.diskName id
  unfold Night.moves
  split
  · rw [hhost, hdisk]
  · rfl

namespace Planning

section
variable {α β : Type} {act : Planning α} {next : α → Planning β}

def Warns (act : Planning α) : Prop :=
  ∀ n, Leads act n (fun _ k => ∃ warnings : List String,
    k.events = n.events ++ warnings.map .warning) anyhow

theorem Keeps.warns (h : Silent act) : Warns act := fun n =>
  (h n).mono (fun _ _ hk => ⟨[], hk.trans (List.append_nil _).symm⟩) fun _ _ _ => trivial

theorem Keeps.map (h : Silent act) (f : α → β) : Silent (f <$> act) := fun n =>
  leads_map.mpr (h n)

/-- After an action of which the operator hears nothing, what is heard is heard of the next one. -/
theorem Keeps.before (h : Silent act) (h' : ∀ a, Warns (next a)) : Warns (act >>= next) := by
  intro n
  rw [leads_bind]
  refine (h n).mono (fun a m hm => ?_) fun _ _ _ => trivial
  rw [← hm]
  exact h' a m

end

theorem silent_getPlan : Silent (getPlan id) := keeps_get.bind fun _ => keeps_pure _

theorem silent_failUnqueued (reason : String) : Silent (failUnqueued id reason) :=
  (aside_events.keeps_onQueues _).bind fun _ => aside_events.keeps_setPlan _

theorem silent_countDump : Silent (countDump id size) := keeps_modify fun _ => rfl

theorem silent_fullMediaSize : Silent (fullMediaSize id) := by
  refine Keeps.bind ?_ fun _ => silent_getPlan.bind fun _ => keeps_pure _
  refine silent_getPlan.bind fun p => ?_
  split
  · exact aside_events.keeps_mediaSize?
  · exact keeps_pure none

theorem warns_noteDump (fullSize : Option Nat) (fault : Option String) :
    Warns (noteDump id fullSize fault) := by
  intro n
  simp only [noteDump]
  cases fault with
  | none => cases fullSize <;> exact ⟨[], (List.append_nil _).symm⟩
  | some fault => cases fullSize <;> exact ⟨[_], rfl⟩

theorem events_announcePick (pick : Option Pick) : Leads (announcePick id pick) n
    (fun _ k => k.events = n.events ++ n.moves id pick) anyhow := by
  cases pick with
  | none => exact (List.append_nil _).symm
  | some pick =>
    cases pick with
    | raised slot level => rfl
    | usable slot => exact (List.append_nil _).symm
    | unmeasured level => exact (List.append_nil _).symm
    | missing => exact (List.append_nil _).symm

theorem events_analyze (id : Nat) (n : Night) : Leads (analyze id) n
    (fun _ k => ∃ said, k.events = n.events ++ said ∧ n.Remarks id said) anyhow := by
  have hplace : ∀ (p : DiskPlan) (size : Nat) (fullSize), Warns (do
      insertScheduled id
      countDump id size
      noteDump id fullSize p.fault) := fun p size fullSize =>
    aside_events.keeps_insertScheduled.before fun _ => silent_countDump.before fun _ =>
      warns_noteDump _ _
  simp only [analyze, scheduleChosen, getPlan, leads_bind, leads_get, leads_pure, leads_reckon]
  refine (events_announcePick _).imp fun _ m hm => ?_
  have hwarns : ∀ {act : Planning Unit}, Warns act → Leads act m
      (fun _ k => ∃ said, k.events = n.events ++ said ∧ n.Remarks id said) anyhow := by
    refine fun hact => (hact m).imp ?_
    rintro _ k ⟨warnings, hk⟩
    refine ⟨_, ?_, warnings, rfl⟩
    rw [hk, hm, List.append_assoc]
    rfl
  apply hwarns
  split
  · exact (silent_failUnqueued _).warns
  · refine (aside_events.keeps_setPlan _).before fun _ =>
      aside_events.keeps_dumpMediaSize.before fun size => ?_
    refine silent_getPlan.before fun p => ?_
    split
    · exact (silent_fullMediaSize.map some).before fun _ => hplace p size _
    · exact (keeps_pure none).before fun _ => hplace p size _

theorem events_analyzeNext (id : Nat) (n : Night) : Leads (analyzeNext id) n
    (fun _ k => ∃ said, k.events = n.events ++ said ∧ n.Remarks id said) anyhow := by
  simp only [analyzeNext, leads_bind, remove, onQueues, leads_get]
  split
  · rw [leads_modify]
    exact events_analyze id _
  · trivial

/-- What is said about the disks is said in their turn, and about each by its own plan. -/
theorem events_analyzeEach (hd : ids.Nodup) (hn : n.Orderly)
    (hids : ∀ id ∈ ids, n.place id = some .estimated) :
    Leads (ids.forM analyzeNext) n (fun _ k => ∃ told : Nat → List Event,
      k.events = n.events ++ ids.flatMap told ∧ ∀ id ∈ ids, n.Remarks id (told id)) anyhow := by
  induction ids generalizing n with
  | nil => exact ⟨fun _ => [], (List.append_nil _).symm, by simp⟩
  | cons id ids ih =>
    obtain ⟨hnew, hd⟩ := List.nodup_cons.mp hd
    have hp := hids id List.mem_cons_self
    have hstep : Leads (analyzeNext id) n (fun _ m => (m.Orderly ∧ n.SameDisks m) ∧ Arrives id n m ∧
        ∃ said, m.events = n.events ++ said ∧ n.Remarks id said) anyhow := by
      have hanalysed : Leads (analyzeNext id) n (fun _ m => m.Orderly ∧ n.SameDisks m) anyhow := by
        refine (leads_analyzeNext hn hp).imp fun _ m hm => ⟨(hm.orderly hn hp).1, ?_⟩
        obtain ⟨p, q, t, hb, -⟩ := hm
        exact (sameDisks_withTotals n t).trans hb.only.same
      exact (hanalysed.and ((leads_analyzeNext_arrives hn hp : Leads _ _ _ anyhow).and
        (events_analyzeNext id n))).mono (fun _ _ hm => hm) fun _ _ _ => trivial
    show Leads (analyzeNext id >>= fun _ => ids.forM analyzeNext) n _ _
    rw [leads_bind]
    apply hstep.imp
    rintro _ m ⟨⟨hm, hsame⟩, ha, said, hevents, hsaid⟩
    have hothers : ∀ {j}, j ∈ ids → j ≠ id := fun hj => ne_of_mem_of_not_mem hj hnew
    refine (ih hd hm fun j hj => ?_).imp ?_
    · rw [ha.place, if_neg (hothers hj)]
      exact hids j (List.mem_cons_of_mem id hj)
    · rintro _ k ⟨told, htold, hall⟩
      refine ⟨Function.update told id said, ?_, ?_⟩
      · have hrest : ids.flatMap (Function.update told id said) = ids.flatMap told :=
          List.flatMap_congr fun j hj => Function.update_of_ne (hothers hj) ..
        rw [List.flatMap_cons, Function.update_self, hrest, htold, hevents, List.append_assoc]
      · intro j hj
        rcases List.mem_cons.mp hj with rfl | hj
        · rwa [Function.update_self]
        · obtain ⟨warnings, hj'⟩ := hall j hj
          refine ⟨warnings, ?_⟩
          rw [Function.update_of_ne (hothers hj), hj', hsame.moves, ha.plan, if_neg (hothers hj)]

theorem events_analyzeAll (hs : g.Sound) (he : g.scheduled = []) :
    Leads analyzeAll g (fun _ a => ∃ told : Nat → List Event,
      a.events = g.events ++ g.queues.estimated.flatMap told ∧
      ∀ id ∈ g.queues.estimated, g.Remarks id (told id)) anyhow := by
  simp only [analyzeAll, leads_bind, leads_modify, leads_get]
  have hempty := empty_orderly hs he (t := (countNothing g).totals) rfl rfl
  exact (events_analyzeEach (hs.valid.nodup .estimated) hempty fun id => hs.place_iff.mpr).imp
    fun _ _ hk => hk

end Planning

/-! ## The whole -/

section
variable {s : Settings} {disks : List Disk} {r : Rotation} {today : Int} {store : Store}
  {n₀ : Night}

/-- However sizes are gathered, no level is looked at that is past the limit and above the last. -/
theorem next_below_of_gathered (hbegin : Night.begin s disks r today = .ok n₀)
    (hprepare : prepareAll store n₀ = .ok () n) (hgathering : Gathering act)
    (hact : act n = .ok () g) (hlast : (g.plan id).lastLevel = some last) (hpos : 1 ≤ last)
    (hsized : ((g.plan id).sizedSlot? (last + 1)).isSome) : last + 1 < levelLimit := by
  obtain ⟨hsetUp, hn, hc⟩ := conversing_of_prepared hbegin hprepare
  have hsteps := (hgathering.steps hn hc).reached hact
  have hterms : (g.plan id).terms = (n.plan id).terms := hsteps.plan (fun _ hf => hf) id
  have hmem := DiskPlan.mem_levels_of_sized hsized
  have hlevels : (n.plan id).levels ≠ [] := by
    intro hnone
    have hnone := (DiskPlan.levels_eq_nil_iff hterms).mpr hnone
    simp [DiskPlan.question, hnone] at hmem
  obtain ⟨d, history, hlaid⟩ := Reached.begin.laidDown hbegin hprepare hlevels
  rw [← hterms] at hlaid
  refine hlaid.next_below hlast hpos ?_
  simpa [DiskPlan.question, DiskPlan.terms, Function.comp_def] using hmem

/-- What is said about the disk is that it moves up, if that pays, and nothing else but warnings. -/
def Night.Announces (g : Night) (id last size : Nat) (said : List Event) : Prop :=
  ∃ warnings : List String, said = (if (g.plan id).Pays last size then
    [.bumped (g.hostName id) (g.diskName id) (last + 1)] else []) ++ warnings.map .warning

/-- **Moving up.** However sizes are gathered, take a disk that was last dumped at level `last`, an
incremental one, and that has a size at this level. With no full dump tonight it is dumped at the
next level if that pays, and at this one otherwise. With a full dump it falls back to an incremental
of just this level, if it takes incrementals. The operator hears of a move up once, and does not if
there is none. If the next level is looked at but has no number, that is an overflow. -/
theorem moves_up_where_it_pays (hbegin : Night.begin s disks r today = .ok n₀)
    (hprepare : prepareAll store n₀ = .ok () n) (hgathering : Gathering act) :
    ∃ g a told, act n = .ok () g ∧ analyzeAll g = .ok () a ∧
      a.events = g.events ++ g.queues.estimated.flatMap told ∧
      ∀ id ∈ g.queues.estimated, ∀ last size, (g.plan id).lastLevel = some last → 1 ≤ last →
        (g.plan id).disk.strategy ≠ .noFull → (g.plan id).nativeSizeAt? last = some size →
        id ∈ a.queues.scheduled ∧
        ((g.plan id).Overruns last → 0 < (g.plan id).nextFull ∨
          (g.plan id).nativeSizeAt? 0 = none ∨ (g.plan id).disk.skipIncr = false →
          a.totals.overflow.isSome) ∧
        (¬(g.plan id).Overruns last →
          (0 < (g.plan id).nextFull ∨ (g.plan id).nativeSizeAt? 0 = none →
            (a.plan id).dumpLevel? = some ((g.plan id).incrementalLevel last size) ∧
            g.Announces id last size (told id)) ∧
          ((g.plan id).nextFull ≤ 0 → ((g.plan id).nativeSizeAt? 0).isSome →
            (g.plan id).disk.skipIncr = false → (a.plan id).dumpLevel? = some 0 ∧
            (a.plan id).fallbackLevel? = some ((g.plan id).incrementalLevel last size) ∧
            g.Announces id last size (told id))) := by
  obtain ⟨g, hg, hsorted, -⟩ := exists_gathered hbegin hprepare hgathering
  have he : g.scheduled = [] := hsorted.empty .scheduled (by decide) (by decide)
  obtain ⟨a, ha, hs, hanalysed⟩ := exists_analysed hsorted
  obtain ⟨told, hevents, htold⟩ := (events_analyzeAll hsorted.sound he).ok ha
  obtain ⟨-, harrive⟩ := (leads_analyzeAll_arrive hsorted.sound he).ok ha
  have hchoices := (overflow_analyzeAll hsorted.sound he).ok ha
  refine ⟨g, a, told, hg, ha, hevents, fun id hid last size hlast hpos hstrategy hsize => ?_⟩
  let p := g.plan id
  obtain ⟨slot, hlevel, hpick⟩ := DiskPlan.exists_pick hlast hpos hstrategy hsize
    (next_below_of_gathered hbegin hprepare hgathering hg hlast hpos)
  have hslot : p.pickIncremental.slot? = some slot := by
    rw [hpick]
    split <;> rfl
  have hplan : a.plan id = p.analysed := by rw [harrive.plan, if_pos hid]
  have hannounces : p.choose.pick = some p.pickIncremental →
      g.Announces id last size (told id) := by
    intro hchosen
    obtain ⟨warnings, hsaid⟩ := htold id hid
    refine ⟨warnings, ?_⟩
    rw [hsaid, hchosen, hpick]
    split <;> rfl
  have hdumped : p.choose.dump.isSome := by
    by_cases hfull : p.nativeSizeAt? 0 = none
    · rw [(DiskPlan.choose_of_pick hlast hpos hslot (Or.inr hfull)).1]
      rfl
    · exact DiskPlan.choose_isSome_of_full
        (DiskPlan.nativeSizeAt?_isSome.mp (Option.isSome_iff_ne_none.mpr hfull))
  obtain ⟨hdump, hdegraded, hlevels⟩ := DiskPlan.analysed_of_chosen hdumped
  refine ⟨?scheduled, fun hover hpicked => ?overrun, fun _ =>
    ⟨fun hfull => ?pick, fun hdue hsized hskip => ?fallback⟩⟩
  case scheduled =>
    rcases hanalysed id hid with ⟨-, hscheduled, -⟩ | ⟨hnone, -⟩
    · exact hs.place_iff.mp hscheduled
    · rw [hnone] at hdumped
      cases hdumped
  case overrun =>
    refine Option.isSome_iff_ne_none.mpr fun hwords => ?_
    have hsome := DiskPlan.choiceOverflow?_of_overruns hlast hover hpicked
    rw [hchoices hwords id hid] at hsome
    cases hsome
  case pick =>
    obtain ⟨hchosen, hpicked⟩ := DiskPlan.choose_of_pick hlast hpos hslot hfull
    refine ⟨?_, hannounces hpicked⟩
    rw [hplan, DiskPlan.dumpLevel?_eq, hdump, hchosen, hlevels]
    exact hlevel
  case fallback =>
    have hincr : 0 < p.incrementalLevel last size := by
      unfold DiskPlan.incrementalLevel
      split <;> omega
    obtain ⟨full, hzero, hchosen, hfallback, hpicked⟩ :=
      DiskPlan.choose_of_full hlast hpos hslot hlevel hincr hdue hsized hskip
    refine ⟨?_, ?_, hannounces hpicked⟩
    · rw [hplan, DiskPlan.dumpLevel?_eq, hdump, hchosen, hlevels]
      exact hzero
    · rw [hplan, DiskPlan.fallbackLevel?, hdegraded, hfallback, hlevels]
      exact hlevel

end

def lastIncremental : Store :=
  { disks := ["/home", "/srv"].map fun name =>
      { host := "alpha", disk := name, command := 0, lastLevel := some 1, levels := [freshFull] } }

def bumpedLate : Disk := { expectedDisk with bump := ({} : Settings).bump }

def bumpedSoon : Disk := { expectedDisk with name := "/srv", bump := ⟨0, 50, 1.5, 0⟩ }

/-- Of two disks with the same sizes one moves up, and the operator hears of it; the other one stays
at its level for want of runs. -/
theorem moves_up_after_enough_runs : ∃ n₀ n g a told,
    Night.begin {} [bumpedLate, bumpedSoon] default 0 = .ok n₀ ∧
    prepareAll lastIncremental n₀ = .ok () n ∧ gatherTurns [.ask 0] n = .ok () g ∧
    analyzeAll g = .ok () a ∧ a.events = g.events ++ [0, 1].flatMap told ∧
    (g.plan 0).nativeSizeAt? 1 = some 100 ∧ (g.plan 1).nativeSizeAt? 1 = some 100 ∧
    (a.plan 0).dumpLevel? = some 1 ∧ (∃ warnings : List String, told 0 = warnings.map .warning) ∧
    (a.plan 1).dumpLevel? = some 2 ∧ ∃ warnings : List String,
      told 1 = .bumped (g.hostName 1) (g.diskName 1) 2 :: warnings.map .warning := by
  obtain ⟨n₀, hbegin, hgathered⟩ : ∃ n₀,
      Night.begin {} [bumpedLate, bumpedSoon] default 0 = .ok n₀ ∧
      Leads (do prepareAll lastIncremental; gatherTurns [.ask 0]) n₀ (fun _ g =>
        g.queues.estimated = [0, 1] ∧
        ((g.plan 0).lastLevel = some 1 ∧ (g.plan 0).disk.strategy ≠ .noFull ∧
          (g.plan 0).nativeSizeAt? 1 = some 100 ∧ 0 < (g.plan 0).nextFull ∧
          ¬(g.plan 0).Pays 1 100) ∧
        (g.plan 1).lastLevel = some 1 ∧ (g.plan 1).disk.strategy ≠ .noFull ∧
          (g.plan 1).nativeSizeAt? 1 = some 100 ∧ 0 < (g.plan 1).nextFull ∧
          (g.plan 1).Pays 1 100) never :=
    ⟨_, rfl, by decide +kernel⟩
  obtain ⟨_, g, hrun, hestimated, ⟨hlast₀, hstrategy₀, hsize₀, hfull₀, hstays⟩,
    hlast₁, hstrategy₁, hsize₁, hfull₁, hpays⟩ := hgathered.exists_ok
  obtain ⟨_, n, hprepare, hg⟩ := ok_of_bind hrun
  obtain ⟨g', a, told, hg', ha, hevents, hall⟩ :=
    moves_up_where_it_pays hbegin hprepare (.turns [.ask 0])
  cases hg.symm.trans hg'
  have hfits : ∀ id, ¬(g.plan id).Overruns 1 := fun _ hover => hover.2 (by decide)
  obtain ⟨-, -, hpicked₀⟩ :=
    hall 0 (by simp [hestimated]) 1 100 hlast₀ (by decide) hstrategy₀ hsize₀
  obtain ⟨-, -, hpicked₁⟩ :=
    hall 1 (by simp [hestimated]) 1 100 hlast₁ (by decide) hstrategy₁ hsize₁
  obtain ⟨hlevel₀, warnings₀, htold₀⟩ := (hpicked₀ (hfits 0)).1 (Or.inl hfull₀)
  obtain ⟨hlevel₁, warnings₁, htold₁⟩ := (hpicked₁ (hfits 1)).1 (Or.inl hfull₁)
  rw [DiskPlan.incrementalLevel, if_neg hstays] at hlevel₀
  rw [DiskPlan.incrementalLevel, if_pos hpays] at hlevel₁
  rw [if_neg hstays] at htold₀
  rw [if_pos hpays] at htold₁
  exact ⟨n₀, n, g, a, told, hbegin, hprepare, hg, ha, hestimated ▸ hevents, hsize₀, hsize₁,
    hlevel₀, ⟨warnings₀, htold₀⟩, hlevel₁, warnings₁, htold₁⟩

end NightlyBackup
