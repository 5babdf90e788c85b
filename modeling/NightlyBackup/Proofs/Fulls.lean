import NightlyBackup.Proofs.Ceilings
import NightlyBackup.Proofs.Reporting
import NightlyBackup.Proofs.Usable

/-!
Full dumps of disks that take none. Whichever phase decides for a full dump, it chooses among the
levels that were asked for; and preparation asks for a full dump only where the strategy of the
disk has full dumps and they are not left to something else.
-/

namespace NightlyBackup

open Night Planning

variable {disks : List Disk} {n m k g a f : Night} {s t : Shrinking} {id slot : Nat}
  {p q r : DiskPlan} {d : Disk} {act : Planning Unit}

/-- The disk takes full dumps, and they are made by this schedule. -/
structure Disk.AllowsFull (d : Disk) : Prop where
  strategy : d.strategy = .standard ∨ d.strategy = .noIncremental
  kept : d.skipFull = true → d.strategy = .noIncremental

theorem Disk.AllowsFull.congr {e : Disk} (h : d.AllowsFull) (hs : e.strategy = d.strategy)
    (hk : e.skipFull = d.skipFull) : e.AllowsFull :=
  ⟨hs ▸ h.strategy, fun hskip => hs.trans (h.kept (hk.symm.trans hskip))⟩

/-! ## Levels that are asked for -/

namespace Outlook

variable {o o' : Outlook} {levels : List Nat}

theorem adds_wantIncrementals (o : Outlook) (runs : Nat) :
    Adds (0 < ·) o (o.wantIncrementals runs) := by
  unfold wantIncrementals
  split
  · dsimp only
    split
    · exact ((Adds.refl o).withReason _).want Nat.one_pos
    · exact (Adds.refl o).withReason _
  · exact (adds_incrementals o _ runs).mono fun _ hw => hw.2

theorem allowsFull_of_wantFull (hw : o.wanted = []) (hfull : o.wantsFull = true)
    (h0 : 0 ∈ o.wantFull.wanted) : o.disk.AllowsFull := by
  have hskips : ¬o.disk.strategy.skipsFulls = true := fun hs => by
    rw [wanted_wantFull hs, hw] at h0
    cases h0
  simp only [wantsFull, Bool.or_eq_true, decide_eq_true_eq, Bool.and_eq_true] at hfull
  rcases hfull with hnoinc | ⟨hkept, -⟩
  · exact ⟨Or.inr hnoinc, fun _ => hnoinc⟩
  · refine ⟨?_, fun hs => ?_⟩
    · cases e : o.disk.strategy <;> simp_all [Strategy.skipsFulls]
    · rw [hs] at hkept
      cases hkept

theorem allowsFull_of_chooseLevels (hw : o.wanted = []) {runs : Nat}
    (h0 : 0 ∈ (o.chooseLevels runs).wanted) : o.disk.AllowsFull := by
  have hasked : ∀ {asked}, AskedFull o asked → 0 ∈ asked.wanted → o.disk.AllowsFull := by
    intro asked hfull hm
    cases hfull with
    | full wants => exact allowsFull_of_wantFull hw wants hm
    | nothing => simp [hw] at hm
  refine chooseLevels_cases (P := fun asked => 0 ∈ asked.wanted → o.disk.AllowsFull) o runs
    (fun _ _ _ hm => ?_) (fun hfull => hasked hfull) (fun hfull _ _ hm => ?_) h0
  · have hlevel1 : 0 ∈ o.wanted ++ [1] := hm
    simp [hw] at hlevel1
  · exact hasked hfull (((adds_wantIncrementals _ runs).wanted 0 hm).resolve_right
      (Nat.lt_irrefl 0))

/-- A full dump is asked for only of a disk that allows it. -/
theorem allowsFull_of_judge {s : Settings} {r : Rotation} (ho : Fits d o)
    (hj : o.judge s r = (o', .ask levels)) (h0 : 0 ∈ levels) : d.AllowsFull := by
  obtain ⟨trusted, runs, ht, rfl, rfl⟩ := chosen_of_judge ho hj
  rw [← ht.disk]
  exact allowsFull_of_chooseLevels ht.wanted (mem_of_mem_dropRepeats (List.mem_of_mem_take h0))

end Outlook

/-! ## Plans that heed what the disk allows -/

namespace DiskPlan

theorem levelAt?_eq (p : DiskPlan) (slot : Nat) : p.levelAt? slot = p.question.levels[slot]? := by
  rw [levelAt?, question, List.getElem?_map]

structure Heeds (d : Disk) (p : DiskPlan) : Prop where
  strategy : p.disk.strategy = d.strategy
  skipFull : p.disk.skipFull = d.skipFull
  full : 0 ∈ p.question.levels → d.AllowsFull

/-- `q` is for the same disk as `p`, about which the same levels were asked. -/
structure SameAsked (p q : DiskPlan) : Prop where
  disk : q.disk = p.disk
  levels : q.question.levels = p.question.levels

theorem SameAsked.refl : p.SameAsked p := ⟨rfl, rfl⟩

theorem SameAsked.trans (h : p.SameAsked q) (h' : q.SameAsked r) : p.SameAsked r :=
  ⟨h'.disk.trans h.disk, h'.levels.trans h.levels⟩

theorem SameAsked.of_levelAt? (hdisk : q.disk = p.disk)
    (hlevel : ∀ slot, q.levelAt? slot = p.levelAt? slot) : p.SameAsked q :=
  ⟨hdisk, List.ext_getElem? fun slot => by rw [← levelAt?_eq, ← levelAt?_eq, hlevel]⟩

theorem SameAsked.fixMedia : p.SameAsked (p.fixMedia slot) :=
  .of_levelAt? rfl fun _ => levelAt?_fixMedia

theorem SameAsked.fixDumpMedia : p.SameAsked p.fixDumpMedia := by
  unfold DiskPlan.fixDumpMedia
  split
  · exact .fixMedia
  · exact .refl

theorem Raised.sameAsked (h : p.Raised q) : p.SameAsked q := .of_levelAt? h.disk h.level

/-- A full dump stays where it is when the schedule is balanced. -/
theorem Raised.full (h : p.Raised q) (hp : p.dumpLevel? = some 0) : q.dumpLevel? = some 0 := by
  have hlevel : q.levelAt? = p.levelAt? := funext h.level
  rw [dumpLevel?_eq, hlevel]
  rcases h.dump with hd | ⟨slot, hc, -⟩
  · rw [hd]
    exact hp
  · cases hc.incremental.symm.trans (decide_eq_true hp)

theorem Heeds.later (h : Heeds d p) (hq : p.SameAsked q) : Heeds d q :=
  ⟨(congrArg Disk.strategy hq.disk).trans h.strategy,
    (congrArg Disk.skipFull hq.disk).trans h.skipFull, fun h0 => h.full (hq.levels ▸ h0)⟩

/-- A plan with a full dump is for a disk that allows it. -/
theorem Heeds.allowsFull (h : Heeds d p) (hfull : p.isFull = true) : d.AllowsFull := by
  obtain ⟨slot, -, hlevel⟩ := Option.bind_eq_some_iff.mp (of_decide_eq_true hfull)
  exact h.full (List.mem_of_getElem? ((p.levelAt?_eq slot).symm.trans hlevel))

end DiskPlan

namespace Night

def Heeds (n m : Night) : Prop := ∀ id, (m.plan id).Heeds (n.plan id).disk

def SameAsked (n m : Night) : Prop := ∀ id, (n.plan id).SameAsked (m.plan id)

theorem SameAsked.trans (h : n.SameAsked m) (h' : m.SameAsked k) : n.SameAsked k :=
  fun id => (h id).trans (h' id)

theorem SameAsked.setPlan {f : DiskPlan → DiskPlan} (hf : ∀ p : DiskPlan, p.SameAsked (f p))
    (h : n.SameAsked m) : n.SameAsked (m.setPlan id f) :=
  h.trans fun j => plan_setPlan_cases (P := fun p => (m.plan j).SameAsked p) (hf _) .refl

theorem Heeds.later (h : n.Heeds m) (hk : m.SameAsked k) : n.Heeds k :=
  fun id => (h id).later (hk id)

end Night

/-! ## Preparation -/

/-- A night begins with the disks that take part. -/
theorem Night.disks_of_begin {settings : Settings} {rotation : Rotation} {today : Int}
    (h : Night.begin settings disks rotation today = .ok n) :
    n.plans.map (·.disk) = disks.filter (·.todo) := by
  have henter : ∀ (more : List Disk) (n : Night),
      (more.foldl enterDisk n).plans.map (·.disk) = n.plans.map (·.disk) ++ more := by
    intro more
    induction more with
    | nil => simp
    | cons d more ih =>
      intro n
      obtain ⟨h, he⟩ := enterDisk_entered n d
      simp [ih, he.plans, DiskPlan.ofDisk]
  simp only [Night.begin] at h
  split at h
  · cases h
  · split at h
    · cases h
    · cases h
      exact henter (disks.filter (·.todo)) _

namespace Planning

/-- Preparation asks for a full dump only of a disk that allows it. -/
theorem heeds_kept (n : Night) :
    KeptByPreparing fun id p => DiskPlan.Heeds (n.plan id).disk p where
  failed _ h := ⟨h.strategy, h.skipFull, h.full⟩
  bypassed {id p} h := by
    unfold bypassHolding
    split
    · exact ⟨h.strategy, h.skipFull, h.full⟩
    · exact h
  asked {id p d o o' s r levels} runs h ho hstrategy hskip hj := by
    refine ⟨h.strategy, h.skipFull, fun h0 => ?_⟩
    have hmem : 0 ∈ levels := by
      simpa [takeOutlook, DiskPlan.question, Function.comp_def] using h0
    exact (Outlook.allowsFull_of_judge ho hj hmem).congr
      (h.strategy.symm.trans hstrategy.symm) (h.skipFull.symm.trans hskip.symm)

/-! ## The schedule -/

theorem sameAsked_failUnqueued (hm : n.SameAsked m) (reason : String) :
    Leads (failUnqueued id reason) m (fun _ k => n.SameAsked k) anyhow := by
  simp only [failUnqueued, enqueue, leads_bind, Planning.setPlan, leads_modify]
  exact leads_onQueues fun _ => SameAsked.setPlan (fun _ => ⟨rfl, rfl⟩) hm

theorem sameAsked_fixCompared {ids : List Nat} (hm : n.SameAsked m) :
    Leads (fixCompared id ids) m (fun _ k => n.SameAsked k) anyhow := by
  refine leads_forM_keeps (fun j _ k hk => ?_) hm
  simp only [getPlan, leads_bind, leads_get, leads_pure]
  split
  · exact (hk.setPlan fun _ => .fixDumpMedia).setPlan fun _ => .fixDumpMedia
  · exact hk

theorem sameAsked_insertScheduled (hm : n.SameAsked m) :
    Leads (insertScheduled id) m (fun _ k => n.SameAsked k) anyhow := by
  simp only [insertScheduled, leads_bind, leads_get]
  exact leads_onQueues fun q => sameAsked_fixCompared (m := m.withQueues q) hm

theorem sameAsked_announcePick {pick : Option Pick} (hm : n.SameAsked m) :
    Leads (announcePick id pick) m (fun _ k => n.SameAsked k) anyhow := by
  unfold announcePick
  split <;> exact hm

theorem sameAsked_fullMediaSize (hm : n.SameAsked m) :
    Leads (fullMediaSize id) m (fun _ k => n.SameAsked k) anyhow := by
  simp only [fullMediaSize, mediaSizeAt?, getPlan, leads_bind, leads_get, leads_pure]
  split
  · exact hm.setPlan fun _ => .fixMedia
  · exact hm

theorem sameAsked_noteDump {fullSize : Option Nat} {fault : Option String}
    (hm : n.SameAsked m) :
    Leads (noteDump id fullSize fault) m (fun _ k => n.SameAsked k) anyhow := by
  simp only [noteDump]
  cases fullSize <;> cases fault <;> exact hm

theorem sameAsked_analyze (hm : n.SameAsked m) :
    Leads (analyze id) m (fun _ k => n.SameAsked k) anyhow := by
  have hplace : ∀ {m : Night} {size : Nat} {fullSize : Option Nat} {fault : Option String},
      n.SameAsked m → Leads (do insertScheduled id; countDump id size; noteDump id fullSize fault)
        m (fun _ k => n.SameAsked k) anyhow := by
    intro m size fullSize fault hm
    simp only [countDump, leads_bind, leads_modify]
    exact (sameAsked_insertScheduled hm).imp fun _ k hk =>
      sameAsked_noteDump (m := k.withTotals _) hk
  simp only [analyze, scheduleChosen, getPlan, leads_bind, leads_get, leads_pure, leads_reckon]
  refine (sameAsked_announcePick (m := m.reckon _) hm).imp fun _ k hk => ?_
  split
  · exact sameAsked_failUnqueued hk _
  · simp only [dumpMediaSize, Planning.setPlan, leads_bind, leads_modify, leads_get, leads_pure]
    have htaken : n.SameAsked (k.setPlan id (takeChoice (m.plan id).choose)) :=
      hk.setPlan fun _ => ⟨rfl, rfl⟩
    have hchosen : n.SameAsked ((k.setPlan id _).setPlan id (·.fixDumpMedia)) :=
      htaken.setPlan fun _ => .fixDumpMedia
    split
    · rw [leads_bind, leads_map]
      exact (sameAsked_fullMediaSize hchosen).imp fun _ _ hk => hplace hk
    · rw [leads_bind]
      exact hplace hchosen

theorem sameAsked_analyzeEach {ids : List Nat} (hm : n.SameAsked m) :
    Leads (ids.forM analyzeNext) m (fun _ k => n.SameAsked k) anyhow := by
  refine leads_forM_keeps (fun id _ k hk => ?_) hm
  simp only [analyzeNext, remove, leads_bind]
  exact leads_onQueues fun q => sameAsked_analyze (m := k.withQueues q) hk

theorem sameAsked_analyzeAll (g : Night) :
    Leads analyzeAll g (fun _ a => g.SameAsked a) anyhow := by
  simp only [analyzeAll, leads_bind, leads_modify, leads_get]
  exact Leads.imp (sameAsked_analyzeEach fun _ => .refl) fun _ _ hk => hk

end Planning

/-- Fitting keeps the levels of every plan. -/
theorem Fitted.sameAsked (h : Fitted a s f) (ha : a.Orderly) : a.SameAsked f := by
  intro id
  rw [h.reported.plan]
  by_cases hp : a.place id = some .scheduled
  · have hsame := (h.explained ha id hp).1
    exact .of_levelAt? hsame.disk hsame.level
  · have hplan : s.night.plan id = a.plan id := h.revised.plan hp
    rw [hplan]
    exact .refl

/-- The phases that make the schedule keep the levels of every plan. -/
theorem Planning.sameAsked_schedule (hg : Sorted .estimated g) :
    Leads schedule g (fun _ k => g.SameAsked k) anyhow := by
  have he : g.scheduled = [] := hg.empty .scheduled (by decide) (by decide)
  simp only [schedule, leads_bind]
  refine (leads_withinWords ((leads_analyzeAll hg.sound he : Leads _ _ _ never).and
    (sameAsked_analyzeAll g))).mono ?_ fun _ _ _ => trivial
  rintro _ a ⟨-, ha, hlevels⟩
  refine (leads_withinWords (leads_fit ha.orderly)).mono ?_ fun _ _ _ => trivial
  rintro _ f ⟨-, s, hf, -⟩
  have hford := hf.orderly ha.orderly
  refine (leads_withinWords (leads_balance_roomy hford : Leads _ _ _ never)).mono ?_
    fun _ _ _ => trivial
  rintro _ k ⟨-, hk⟩
  exact (hlevels.trans (hf.sameAsked ha.orderly)).trans fun id =>
    ((hk.raised hford).2.2 id).sameAsked

/-! ## The whole night -/

/-- **No unwanted full dump.** However sizes are gathered, a full dump is on the schedule of a
planned night only for a disk whose strategy is the standard one or without incrementals, and
whose full dumps are not skipped unless it has no incrementals. -/
theorem full_dumps_allowed {settings : Settings} {rotation : Rotation} {today : Int}
    {store : Store} (hbegin : Night.begin settings disks rotation today = .ok n)
    (hgathering : Gathering act) (hplan : planWith store act n = .ok () k) :
    ∀ id ∈ k.scheduled, (k.plan id).dumpLevel? = some 0 →
      ∃ d, (disks.filter (·.todo))[id]? = some d ∧
        (d.strategy = .standard ∨ d.strategy = .noIncremental) ∧
        (d.skipFull = true → d.strategy = .noIncremental) := by
  intro id hid hlevel
  obtain ⟨_, m, hprepare, hplan⟩ := ok_of_bind hplan
  obtain ⟨_, g, hgather, hschedule⟩ := ok_of_bind hplan
  replace hprepare := (withinWords_eq_ok.mp hprepare).1
  replace hgather := (withinWords_eq_ok.mp hgather).1
  have hdisks := disks_of_begin hbegin
  have hbegun : ∀ id, (n.plan id).question.levels = [] := fun id => by
    rw [DiskPlan.question, (fresh_of_begin hbegin).levels]
    rfl
  have hm : n.Heeds m := ((heeds_kept n).prepareAll (fun id =>
    ⟨rfl, rfl, fun h0 => by rw [hbegun] at h0; cases h0⟩) store).ok hprepare
  obtain ⟨hsetUp, hhosted, hc⟩ := conversing_of_prepared hbegin hprepare
  obtain ⟨hclosing, hquestions⟩ := (hgathering.leads hhosted hc).reached hgather
  have hasked : m.SameAsked g := fun id =>
    ⟨congrArg Question.disk (hquestions.question id),
      congrArg Question.levels (hquestions.question id)⟩
  have hmade : g.SameAsked k := (sameAsked_schedule (.gathered hsetUp hclosing)).ok hschedule
  obtain ⟨hsorted, -, hgk⟩ := (leads_schedule (.gathered hsetUp hclosing)).ok hschedule
  have hlt : id < n.plans.length := by
    rw [← (hsetUp.same.trans (hclosing.same.trans hgk)).length]
    exact hsorted.sound.lt_of_place (hsorted.sound.mem_scheduled.mp hid)
  have hallows := (hm.later (hasked.trans hmade) id).allowsFull (decide_eq_true hlevel)
  refine ⟨(n.plan id).disk, ?_, hallows.strategy, hallows.kept⟩
  rw [← hdisks, List.getElem?_map, List.getElem?_eq_getElem hlt]
  simp [plan, List.getD_eq_getElem?_getD, List.getElem?_eq_getElem hlt]

/-- Where the dumps that were chosen have room and nothing could be promoted, the night is planned
as it was drawn up. -/
theorem exists_planned_of_fits {settings : Settings} {rotation : Rotation} {today : Int}
    {store : Store} (hbegin : Night.begin settings disks rotation today = .ok n)
    (hgathering : Gathering act) (hdrawn : drawWith store act n = .ok () a)
    (hsize : a.totals.size ≤ a.media.capacity) (hbounded : ∀ id ∈ a.scheduled, a.Bounded id)
    (hrest : a.AtRest) :
    a.Orderly ∧ ∃ k, planWith store act n = .ok () k ∧ Noted a k := by
  obtain ⟨_, m, hprepare, hrun⟩ := ok_of_bind hdrawn
  obtain ⟨_, g, hgather, hanalyze⟩ := ok_of_bind hrun
  obtain ⟨hanalyze, hwords⟩ := withinWords_eq_ok.mp hanalyze
  obtain ⟨g', hgather', hg, -⟩ :=
    exists_gathered hbegin (withinWords_eq_ok.mp hprepare).1 hgathering
  cases (withinWords_eq_ok.mp hgather).1.symm.trans hgather'
  have ha := ((leads_analyzeAll hg.sound
    (hg.empty .scheduled (by decide) (by decide))).reached hanalyze).orderly
  have hfit : fit a = .ok () a := fit_of_fits ha hsize fun id hp =>
    hbounded id (ha.sound.mem_scheduled.mpr hp)
  exact ⟨ha, exists_planned_atRest hdrawn hfit hrest hwords⟩

/-- The schedule that is drawn up holds the dump of one disk at `level`, for which there is room,
and a full dump could not take its place. -/
def DrawsAlone (store : Store) (act : Planning Unit) (level : Nat) (n : Night) : Prop :=
  Leads (drawWith store act) n (fun _ a =>
    a.scheduled = [0] ∧ (a.plan 0).dumpLevel? = some level ∧ (a.plan 0).Barred ∧
    a.totals.size ≤ a.media.capacity ∧
    (a.plan 0).dumpMediaSize ≤ a.media.ceiling (a.plan 0).disk ∧
    sizesOverflow? ((hillDays a).map (heightOf a)) = none) never

instance (store : Store) (act : Planning Unit) (level : Nat) (n : Night) :
    Decidable (DrawsAlone store act level n) :=
  inferInstanceAs (Decidable (Leads _ _ _ _))

/-- The night of one disk ends with the dump that was chosen for it. -/
theorem exists_planned_alone {store : Store}
    (hbegin : Night.begin {} disks default 0 = .ok n) (hgathering : Gathering act)
    (hdrawn : DrawsAlone store act level n) :
    ∃ k, planWith store act n = .ok () k ∧ 0 ∈ k.scheduled ∧
      (k.plan 0).dumpLevel? = some level := by
  obtain ⟨_, a, hdrawn, hscheduled, hlevel, hbarred, hsize, hdump, hheights⟩ := hdrawn.exists_ok
  have honly : ∀ id ∈ a.scheduled, id = 0 := fun id hid => by simpa [hscheduled] using hid
  obtain ⟨ha, k, hplan, hk⟩ := exists_planned_of_fits hbegin hgathering hdrawn hsize
    (fun id hid => (honly id hid).symm ▸ hdump)
    ⟨fun id hid => (honly id hid).symm ▸ hbarred, hheights⟩
  refine ⟨k, hplan, ?_, (hk.plan 0).dumpLevel?.trans hlevel⟩
  rw [hk.scheduled, hscheduled]
  exact List.mem_singleton.mpr rfl

/-- The full dump of a new disk is scheduled. -/
theorem full_dump_of_new_allowed : ∃ n k, Night.begin {} [expectedDisk] default 0 = .ok n ∧
    planWith {} (gatherTurns [.ask 0]) n = .ok () k ∧ 0 ∈ k.scheduled ∧
    (k.plan 0).dumpLevel? = some 0 ∧ expectedDisk.strategy = .standard ∧
    expectedDisk.skipFull = false ∧
    ∃ d, ([expectedDisk].filter (·.todo))[0]? = some d ∧
      (d.strategy = .standard ∨ d.strategy = .noIncremental) ∧
      (d.skipFull = true → d.strategy = .noIncremental) := by
  obtain ⟨n, hbegin, hdrawn⟩ : ∃ n, Night.begin {} [expectedDisk] default 0 = .ok n ∧
      DrawsAlone {} (gatherTurns [.ask 0]) 0 n := ⟨_, rfl, by decide +kernel⟩
  obtain ⟨k, hplan, hmem, hfull⟩ := exists_planned_alone hbegin (.turns [.ask 0]) hdrawn
  exact ⟨n, k, hbegin, hplan, hmem, hfull, rfl, rfl,
    full_dumps_allowed hbegin (.turns [.ask 0]) hplan 0 hmem hfull⟩

end NightlyBackup
