import NightlyBackup.Proofs.Ranking

/-!
The order in which disks were answered for. What is decided about a disk depends on its own answers
alone, and where it stands in the schedule on its priority and its size: a disk stands behind those
that came before it only if nothing else tells them apart. So the schedule is the same whatever
the order, but among such equals.
-/

namespace NightlyBackup

open Night Planning

variable {a b g h n m k : Night} {id j : Nat} {ids : List Nat} {p : DiskPlan}
  {fail : Fault → Night → Prop}

/-! ## What becomes of a plan -/

namespace DiskPlan

def destination (p : DiskPlan) : QueueName :=
  if p.choose.dump.isSome then .scheduled else .failed

def fixFullMedia (p : DiskPlan) : DiskPlan :=
  if p.disk.takesFulls then
    match p.sizedSlot? 0 with
    | some slot => p.fixMedia slot
    | none => p
  else p

def analysed (p : DiskPlan) : DiskPlan :=
  if p.choose.dump.isSome then (takeChoice p.choose p).fixDumpMedia.fixFullMedia
  else { p with fault := some "no estimate" }

theorem fixDumpMedia_of_dump {slot : Nat} (hd : p.dump = some slot) :
    p.fixDumpMedia = p.fixMedia slot := by
  simp only [fixDumpMedia, hd]

theorem Planned.fixFullMedia (h : p.Planned) : p.fixFullMedia.Planned := by
  unfold DiskPlan.fixFullMedia
  split
  · split
    · exact h.fixMedia
    · exact h
  · exact h

theorem planned_analysed (hd : p.destination = .scheduled) : p.analysed.Planned := by
  have hsome : p.choose.dump.isSome = true := by
    by_contra hnone
    rw [destination, if_neg hnone] at hd
    cases hd
  obtain ⟨slot, hslot⟩ := Option.isSome_iff_exists.mp hsome
  have hdump : (takeChoice p.choose p).dump = some slot := hslot
  rw [analysed, if_pos hsome, fixDumpMedia_of_dump hdump]
  exact (takeChoice_planned (choose_choosable p) hslot).fixFullMedia

end DiskPlan

/-! ## What becomes of a night -/

namespace Night

def sortsAhead (n : Night) (i j : Nat) : Bool := (n.plan i).order (n.plan j) = .lt

def analysed (n : Night) (id : Nat) : Night :=
  let m := n.setPlan id DiskPlan.analysed
  m.withQueues (if (n.plan id).destination = .scheduled then
    m.queues.joinAhead .scheduled m.sortsAhead id else m.queues.join .failed id)

/-- `k` is `n`, but that the operator was told something and that the running sizes may differ. -/
def Told (n k : Night) : Prop := ∃ events totals, k = { n with events := events, totals := totals }

theorem Told.refl : n.Told n := ⟨n.events, n.totals, rfl⟩

theorem Told.reckon (what : Option Overflow) : n.Told (n.reckon what) := ⟨n.events, _, rfl⟩

theorem Told.trans (h : n.Told m) (h' : m.Told k) : n.Told k := by
  obtain ⟨events, totals, rfl⟩ := h
  obtain ⟨events', totals', rfl⟩ := h'
  exact ⟨events', totals', rfl⟩

end Night

/-- What the operator was told and the running sizes do not matter to a disk that is analysed. -/
theorem Night.Told.analysed (hm : n.Told m) (hs : n.Sound) (hid : id < n.plans.length)
    (hp : n.place id = none) (hplanned : ∀ {j}, n.place j = some .scheduled → (n.plan j).Planned) :
    m.Sound ∧ id < m.plans.length ∧ m.place id = none ∧
      (∀ {j}, m.place j = some .scheduled → (m.plan j).Planned) ∧ m.plan id = n.plan id ∧
      (n.analysed id).Told (m.analysed id) := by
  obtain ⟨events, totals, rfl⟩ := hm
  exact ⟨⟨hs.valid, hs.registered⟩, hid, hp, hplanned, rfl, events, totals, rfl⟩

namespace Planning

theorem told_announcePick (pick : Option Pick) :
    Leads (announcePick id pick) n (fun _ k => n.Told k) fail := by
  unfold announcePick
  split
  · exact ⟨_, n.totals, rfl⟩
  · exact .refl

theorem told_countDump (size : Nat) :
    Leads (countDump id size) n (fun _ k => n.Told k) fail :=
  ⟨n.events, _, rfl⟩

theorem told_noteDump (fullSize : Option Nat) (fault : Option String) :
    Leads (noteDump id fullSize fault) n (fun _ k => n.Told k) fail := by
  simp only [noteDump]
  cases fullSize <;> cases fault <;> exact ⟨_, _, rfl⟩

theorem leads_fullMediaSize_exact (hd : (n.plan id).disk.takesFulls = true) :
    Leads (fullMediaSize id) n (fun _ k => k = n.setPlan id DiskPlan.fixFullMedia) fail := by
  simp only [fullMediaSize, mediaSizeAt?, getPlan, leads_bind, leads_get, leads_pure]
  split
  · rename_i slot hslot
    refine setPlan_congr ?_
    simp only [DiskPlan.fixFullMedia, hd, if_true, hslot]
  · rename_i hnone
    refine (setPlan_eq_self ?_).symm
    simp only [DiskPlan.fixFullMedia, hd, if_true, hnone]

/-- A record takes its place in the schedule with the plan that it has once it was analysed; the
other dumps are planned, and so they are compared with it without a change. -/
theorem leads_insertScheduled_analysed (hs : n.Sound) (hid : id < n.plans.length)
    (hp : n.place id = none)
    (hplanned : ∀ {j}, n.place j = some .scheduled → (n.plan j).Planned)
    (hd : (n.plan id).destination = .scheduled) :
    Leads (insertScheduled id) (n.setPlan id DiskPlan.analysed) (fun _ k => k = n.analysed id)
      fail := by
  let m := n.setPlan id DiskPlan.analysed
  have hplan : m.plan id = (n.plan id).analysed := plan_setPlan_self hid
  have hothers : ∀ {j}, m.place j = some .scheduled → (m.plan j).Planned := by
    intro j hj
    have hne : j ≠ id := fun e => by cases hp.symm.trans (e ▸ hj)
    have hkept : m.plan j = n.plan j := plan_setPlan_of_ne hne
    rw [hkept]
    exact hplanned hj
  have hm : m.Sound := hs.setPlan _
  let k := m.withQueues (m.queues.joinAhead .scheduled m.sortsAhead id)
  have hk : k = n.analysed id := congrArg m.withQueues (if_pos hd).symm
  have hlt : id < m.queues.registered := hs.registered ▸ hid
  simp only [insertScheduled, leads_bind, leads_get]
  refine leads_of_ok (t := k) (onQueues_ok (Queues.insertSorted_ok hlt hp)) ?_
  rw [← hk]
  refine fixCompared_ok (n := k) ?_ fun j hj =>
    hothers (hm.mem_scheduled.mp (mem_of_mem_passed hj))
  exact hplan ▸ DiskPlan.planned_analysed hd

/-- **One disk.** What becomes of a disk that is analysed depends on its plan alone, and its place
on the schedule on the dumps that are there. -/
theorem leads_analyze_exact (hs : n.Sound) (hid : id < n.plans.length) (hp : n.place id = none)
    (hplanned : ∀ {j}, n.place j = some .scheduled → (n.plan j).Planned) :
    Leads (analyze id) n (fun _ k => (n.analysed id).Told k) fail := by
  simp only [analyze, scheduleChosen, getPlan, leads_bind, leads_get, leads_pure, leads_reckon]
  apply (told_announcePick _).imp
  rintro _ m hm
  replace hm : n.Told m := (Told.reckon _).trans hm
  obtain ⟨hms, hmid, hmp, hmplanned, hsame, hanalysed⟩ := hm.analysed hs hid hp hplanned
  rw [← hsame]
  refine Leads.imp ?_ fun _ k (hk : (m.analysed id).Told k) => hanalysed.trans hk
  split
  · rename_i hnone
    simp only [failUnqueued, leads_bind]
    refine leads_of_ok (enqueue_ok hms hmid hmp) ⟨m.events, m.totals, ?_⟩
    have hplan : m.setPlan id DiskPlan.analysed =
        m.setPlan id fun p => { p with fault := some "no estimate" } :=
      setPlan_congr (by simp [DiskPlan.analysed, hnone])
    have hfailed : (m.plan id).destination ≠ .scheduled := by simp [DiskPlan.destination, hnone]
    simp only [analysed, if_neg hfailed, hplan]
    rfl
  · rename_i slot hslot
    have hsome : (m.plan id).choose.dump.isSome = true := by rw [hslot]; rfl
    have hanalysed : (m.plan id).analysed =
        (takeChoice (m.plan id).choose (m.plan id)).fixDumpMedia.fixFullMedia := if_pos hsome
    -- Whatever is looked at before the record takes its place, it has its plan by then.
    have hrest : ∀ {f : DiskPlan → DiskPlan} (size : Nat) (fullSize : Option Nat)
        (fault : Option String), f (m.plan id) = (m.plan id).analysed →
        Leads (do insertScheduled id; countDump id size; noteDump id fullSize fault)
          (m.setPlan id f) (fun _ k => (m.analysed id).Told k) fail := by
      intro f size fullSize fault hf
      rw [setPlan_congr hf, leads_bind]
      apply (leads_insertScheduled_analysed hms hmid hmp hmplanned (if_pos hsome)).imp
      rintro _ _ rfl
      rw [leads_bind]
      apply (told_countDump size).imp
      intro _ k hk
      exact (told_noteDump fullSize fault).imp fun _ l hl => hk.trans hl
    simp only [dumpMediaSize, Planning.setPlan, leads_bind, leads_modify, leads_get, leads_pure,
      setPlan_setPlan]
    split
    · rename_i hfull
      rw [leads_bind, leads_map]
      apply (leads_fullMediaSize_exact hfull).imp
      rintro fullSize _ rfl
      rw [setPlan_setPlan]
      exact hrest _ _ _ hanalysed.symm
    · rename_i hfull
      rw [leads_bind, leads_pure]
      rw [plan_setPlan_self hmid] at hfull
      refine hrest _ _ _ ?_
      rw [hanalysed]
      exact (if_neg hfull).symm

end Planning

/-! ## The schedule so far -/

def DiskPlan.rank (p : DiskPlan) : Int × Nat := (p.priority, p.dumpMediaSize)

def Night.rank (n : Night) (id : Nat) : Int × Nat := (n.plan id).rank

theorem DiskPlan.Precedes.rank_eq {q : DiskPlan} (h : p.Precedes q) (h' : q.Precedes p) :
    p.rank = q.rank := by
  unfold Precedes at h h'
  refine Prod.ext ?_ ?_ <;> simp only [rank] <;> omega

theorem DiskPlan.precedes_refl (p : DiskPlan) : p.Precedes p := Or.inr ⟨rfl, Nat.le_refl _⟩

/-- What precedes a plan precedes those of its rank. -/
theorem DiskPlan.Precedes.congr_rank {q r : DiskPlan} (h : p.Precedes q) (hr : q.rank = r.rank) :
    p.Precedes r := by
  obtain ⟨hpriority, hsize⟩ := Prod.mk.inj hr
  unfold Precedes at *
  rwa [← hpriority, ← hsize]

/-- Of the records with one rank, those that were there come first and the new one last. -/
theorem filter_rank_insertAhead (hsorted : ids.Pairwise n.Ahead) (rank : Int × Nat) :
    (Queues.insertAhead (n.sortsAhead id) id ids).filter (n.rank · = rank) =
      ids.filter (n.rank · = rank) ++ if n.rank id = rank then [id] else [] := by
  induction ids with
  | nil => simp [Queues.insertAhead, List.filter_cons]
  | cons m rest ih =>
    obtain ⟨hm, hrest⟩ := List.pairwise_cons.mp hsorted
    unfold Queues.insertAhead
    split
    · rename_i hlt
      have hbehind : ∀ j ∈ m :: rest, n.rank j ≠ n.rank id := by
        have hfirst : ¬n.Ahead m id := DiskPlan.order_eq_lt.mp (of_decide_eq_true hlt)
        intro j hj hequal
        refine hfirst ?_
        have hmj : n.Ahead m j := by
          rcases List.mem_cons.mp hj with rfl | hj
          · exact DiskPlan.precedes_refl _
          · exact hm j hj
        exact hmj.congr_rank hequal
      rw [List.filter_cons]
      split
      · rename_i hrank
        have hrank : n.rank id = rank := of_decide_eq_true hrank
        have hnone : (m :: rest).filter (n.rank · = rank) = [] :=
          List.filter_eq_nil_iff.mpr fun j hj => by simpa [← hrank] using hbehind j hj
        rw [hnone, if_pos hrank, List.nil_append]
      · rename_i hrank
        rw [if_neg fun e => hrank (decide_eq_true e), List.append_nil]
    · rw [List.filter_cons, List.filter_cons, ih hrest]
      split <;> simp

/-- In `k` a record of `n` was analysed and took its place. -/
structure Arrives (id : Nat) (n k : Night) : Prop where
  plan : ∀ j, k.plan j = if j = id then (n.plan j).analysed else n.plan j
  place : ∀ j, k.place j = if j = id then some (n.plan j).destination else n.place j
  scheduled : k.scheduled = if (n.plan id).destination = .scheduled then
    Queues.insertAhead (k.sortsAhead id) id n.scheduled else n.scheduled

theorem Arrives.told (hm : Arrives id n m) (hk : m.Told k) : Arrives id n k := by
  obtain ⟨events, totals, rfl⟩ := hk
  exact ⟨hm.plan, hm.place, hm.scheduled⟩

theorem arrives_analysed (hs : n.Sound) (hid : id < n.plans.length) (hp : n.place id = none) :
    Arrives id n (n.analysed id) := by
  let m := n.setPlan id DiskPlan.analysed
  have hm : m.Sound := hs.setPlan _
  have hlt : id < m.plans.length := by simpa [m] using hid
  have hplan : ∀ j, m.plan j = if j = id then (n.plan j).analysed else n.plan j := by
    intro j
    split
    · rename_i e
      exact e ▸ plan_setPlan_self hid
    · rename_i hne
      exact plan_setPlan_of_ne hne
  by_cases hd : (n.plan id).destination = .scheduled
  · have hanalysed : n.analysed id =
        m.withQueues (m.queues.joinAhead .scheduled m.sortsAhead id) :=
      congrArg m.withQueues (if_pos hd)
    have hmembers : (m.queues.joinAhead .scheduled m.sortsAhead id).members .scheduled = _ :=
      (hm.valid.holds_joinAhead (hm.registered ▸ hlt) hp).members_eq
    rw [Function.update_self] at hmembers
    rw [hanalysed]
    refine ⟨hplan, fun j => (hm.place_joinAhead hlt hp j).trans ?_, ?_⟩
    · split
      · rename_i e
        rw [e, hd]
      · rfl
    · rw [if_pos hd]
      exact hmembers
  · have hanalysed : n.analysed id = m.withQueues (m.queues.join .failed id) :=
      congrArg m.withQueues (if_neg hd)
    have hfailed : (n.plan id).destination = .failed := by
      unfold DiskPlan.destination at hd ⊢
      split at hd
      · exact absurd rfl hd
      · rw [if_neg ‹_›]
    rw [hanalysed]
    refine ⟨hplan, fun j => (hm.place_join hlt hp j).trans ?_, ?_⟩
    · split
      · rename_i e
        rw [e, hfailed]
      · rfl
    · rw [if_neg hd]
      exact hm.members_join hlt hp .scheduled

theorem leads_analyzeNext_arrives (hn : n.Orderly) (hp : n.place id = some .estimated) :
    Leads (analyzeNext id) n (fun _ k => Arrives id n k) fail := by
  have hid := hn.sound.lt_of_place hp
  let m := n.withQueues (n.queues.leave .estimated id)
  have hm : m.Sound := hn.sound.leave hp
  have hplace : ∀ j, m.place j = if j = id then none else n.place j := hn.sound.place_leave hp
  have hscheduled : m.scheduled = n.scheduled := hn.sound.members_leave hp .scheduled
  have hfree : m.place id = none := (hplace id).trans (if_pos rfl)
  have hplanned : ∀ {j}, m.place j = some .scheduled → (m.plan j).Planned := by
    intro j hj
    rw [hplace] at hj
    split at hj
    · cases hj
    · exact hn.planned hj
  simp only [analyzeNext, leads_bind]
  refine leads_of_ok (remove_ok hn.sound hp) ?_
  apply (leads_analyze_exact hm hid hfree hplanned).imp
  intro _ k hk
  obtain ⟨hkplan, hkplace, hkscheduled⟩ := (arrives_analysed hm hid hfree).told hk
  refine ⟨hkplan, fun j => (hkplace j).trans ?_, hscheduled ▸ hkscheduled⟩
  split
  · rfl
  · rename_i hne
    rw [hplace, if_neg hne]

/-- The record has joined those of its rank at the end. -/
theorem Arrives.inTurn (ha : Arrives id n m) (hr : n.Ranked) (hid : id ∉ n.scheduled)
    (rank : Int × Nat) : m.scheduled.filter (m.rank · = rank) =
      n.scheduled.filter (n.rank · = rank) ++
        [id].filter fun i => m.place i = some .scheduled ∧ m.rank i = rank := by
  have hplan : ∀ j ∈ n.scheduled, m.plan j = n.plan j := fun j hj => by
    rw [ha.plan, if_neg (ne_of_mem_of_not_mem hj hid)]
  have hrank : n.scheduled.filter (m.rank · = rank) = n.scheduled.filter (n.rank · = rank) :=
    List.filter_congr fun j hj => by rw [Night.rank, Night.rank, hplan j hj]
  have hsorted : n.scheduled.Pairwise m.Ahead := by
    refine hr.imp_of_mem fun {i j} hi hj hij => ?_
    rw [Night.Ahead, hplan i hi, hplan j hj]
    exact hij
  have hplace : m.place id = some (n.plan id).destination := by rw [ha.place, if_pos rfl]
  rw [ha.scheduled, ← hrank]
  by_cases hd : (n.plan id).destination = .scheduled
  · rw [if_pos hd, filter_rank_insertAhead hsorted, List.filter_cons, hplace, hd]
    simp
  · rw [if_neg hd, List.filter_cons, hplace]
    simp [hd]

structure AllArrive (ids : List Nat) (n k : Night) : Prop where
  plan : ∀ j, k.plan j = if j ∈ ids then (n.plan j).analysed else n.plan j
  place : ∀ j, k.place j = if j ∈ ids then some (n.plan j).destination else n.place j
  inTurn : ∀ rank, k.scheduled.filter (k.rank · = rank) = n.scheduled.filter (n.rank · = rank) ++
    ids.filter fun id => k.place id = some .scheduled ∧ k.rank id = rank

theorem AllArrive.cons (ha : Arrives id n m) (hr : n.Ranked) (hid : id ∉ n.scheduled)
    (hk : AllArrive ids m k) (hnew : id ∉ ids) : AllArrive (id :: ids) n k := by
  refine ⟨fun j => ?_, fun j => ?_, fun rank => ?_⟩
  · rw [hk.plan, ha.plan]
    by_cases hj : j = id
    · subst hj
      simp [hnew]
    · simp [hj]
  · rw [hk.place, ha.place, ha.plan]
    by_cases hj : j = id
    · subst hj
      simp [hnew]
    · simp [hj]
  · have hplan : k.plan id = m.plan id := by rw [hk.plan, if_neg hnew]
    have hplace : k.place id = m.place id := by rw [hk.place, if_neg hnew]
    rw [hk.inTurn, ha.inTurn hr hid, List.append_assoc]
    congr 1
    rw [List.filter_cons, List.filter_cons, Night.rank, Night.rank, hplan, hplace]
    split <;> rfl

/-- **All disks.** Each disk becomes what its own plan says, and joins those of its rank in its
turn. -/
theorem leads_analyzeEach_arrive {ids : List Nat} (hd : ids.Nodup) (hn : n.Orderly)
    (hr : n.Ranked) (hids : ∀ id ∈ ids, n.place id = some .estimated) :
    Leads (ids.forM analyzeNext) n (fun _ k => k.Orderly ∧ k.Ranked ∧ AllArrive ids n k)
      anyhow := by
  induction ids generalizing n with
  | nil => exact ⟨hn, hr, by simp, by simp, by simp⟩
  | cons id ids ih =>
    obtain ⟨hnew, hd⟩ := List.nodup_cons.mp hd
    have hp := hids id List.mem_cons_self
    have hid : id ∉ n.scheduled := fun hm => by
      cases hp.symm.trans (hn.sound.mem_scheduled.mp hm)
    have hstep : Leads (analyzeNext id) n (fun _ m => m.Orderly ∧ m.Ranked ∧ Arrives id n m)
        anyhow := by
      refine (((leads_analyzeNext hn hp : Leads _ _ _ anyhow).and
        (ranked_analyzeNext (rankedBut_none.mpr ⟨hn.sound, hr⟩))).and
          (leads_analyzeNext_arrives hn hp : Leads _ _ _ anyhow)).mono ?_ fun _ _ _ => trivial
      rintro _ m ⟨⟨hanalysed, hranked⟩, ha⟩
      exact ⟨(hanalysed.orderly hn hp).1, (rankedBut_none.mp hranked).2, ha⟩
    show Leads (analyzeNext id >>= fun _ => ids.forM analyzeNext) n _ _
    rw [leads_bind]
    apply hstep.imp
    rintro _ m ⟨hm, hmr, ha⟩
    refine (ih hd hm hmr fun j hj => ?_).imp ?_
    · rw [ha.place, if_neg (ne_of_mem_of_not_mem hj hnew)]
      exact hids j (List.mem_cons_of_mem id hj)
    · rintro _ k ⟨hk, hkr, hall⟩
      exact ⟨hk, hkr, .cons ha hr hid hall hnew⟩

theorem leads_analyzeAll_arrive (hs : g.Sound) (he : g.scheduled = []) :
    Leads analyzeAll g (fun _ a => a.Ranked ∧ AllArrive g.queues.estimated g a) anyhow := by
  simp only [analyzeAll, leads_bind, leads_modify, leads_get]
  have hempty := empty_orderly hs he (t := (countNothing g).totals) rfl rfl
  have hranked : (countNothing g).Ranked := by
    show g.scheduled.Pairwise _
    rw [he]
    exact .nil
  refine (leads_analyzeEach_arrive (hs.valid.nodup .estimated) hempty hranked
    fun id => hs.place_iff.mpr).imp ?_
  rintro _ k ⟨-, hk, hall⟩
  exact ⟨hk, hall.plan, hall.place, hall.inTurn⟩

/-! ## Another order -/

/-- `h` is the night `g` with the disks on the estimated queue in another order. -/
structure Night.Reordered (g h : Night) : Prop where
  rest : h = { g with queues := h.queues }
  estimated : h.queues.estimated.Perm g.queues.estimated
  others : ∀ name, name ≠ .estimated → h.queues.members name = g.queues.members name

/-- Scheduled records that priority and size do not tell apart stand as they do in `arrived`. -/
def Night.InArrivalOrder (arrived : List Nat) (a : Night) : Prop := ∀ rank,
  a.scheduled.filter (a.rank · = rank) =
    arrived.filter fun id => a.place id = some .scheduled ∧ a.rank id = rank

theorem AllArrive.inArrivalOrder (h : AllArrive ids g a) (he : g.scheduled = []) :
    a.InArrivalOrder ids := by
  intro rank
  rw [h.inTurn, he]
  rfl

theorem Night.Reordered.plan (ho : g.Reordered h) (id : Nat) : h.plan id = g.plan id := by
  rw [ho.rest]
  rfl

theorem Night.Reordered.scheduled (ho : g.Reordered h) : h.scheduled = g.scheduled :=
  ho.others .scheduled (by decide)

theorem Night.Reordered.place (ho : g.Reordered h) (hg : g.Sound) (hh : h.Sound) (id : Nat) :
    h.place id = g.place id := by
  refine hg.valid.queueOf_congr hh.valid fun name => ?_
  by_cases hname : name = .estimated
  · subst hname
    exact ho.estimated.mem_iff
  · rw [ho.others name hname]

/-- Two schedules of the same records stand in the same sequence of ranks, and in the same order if
their ranks tell them all apart. -/
theorem scheduled_eq_of_ranks (ha : a.Ranked) (hb : b.Ranked)
    (hperm : b.scheduled.Perm a.scheduled) (hplan : ∀ id, b.plan id = a.plan id) :
    b.scheduled.map b.rank = a.scheduled.map a.rank ∧
      ((∀ i ∈ a.scheduled, ∀ j ∈ a.scheduled, a.rank i = a.rank j → i = j) →
        b.scheduled = a.scheduled) := by
  have hrank : b.rank = a.rank := funext fun id => by rw [Night.rank, Night.rank, hplan]
  have hahead : b.Ahead = a.Ahead := funext fun i => funext fun j => by
    rw [Night.Ahead, Night.Ahead, hplan, hplan]
  rw [Ranked, hahead] at hb
  rw [hrank]
  constructor
  · -- ranks in schedule order that precede each other are the same
    let le : Int × Nat → Int × Nat → Prop := fun x y => y.1 < x.1 ∨ (x.1 = y.1 ∧ y.2 ≤ x.2)
    have hbr : (b.scheduled.map a.rank).Pairwise le := List.pairwise_map.mpr hb
    have har : (a.scheduled.map a.rank).Pairwise le := List.pairwise_map.mpr ha
    refine List.Perm.eq_of_pairwise ?_ hbr har (hperm.map _)
    intro x y _ _ hxy hyx
    refine Prod.ext ?_ ?_ <;> simp only [le] at hxy hyx <;> omega
  · intro hinj
    refine List.Perm.eq_of_pairwise (fun i j hi hj hij hji => ?_) hb ha hperm
    exact hinj i (hperm.mem_iff.mp hi) j hj (DiskPlan.Precedes.rank_eq hij hji)

/-- **The order of answers does not matter.** Whatever order the disks on the estimated queue are
in, the same is decided about each of them, and the schedule takes the same. It is the same
sequence of priorities and sizes, in which disks with the same priority and size stand in the
order in which they were answered for; if there are none such, it is the same schedule. -/
theorem schedule_of_any_arrivals (hg : g.Sound) (hh : h.Sound) (he : g.scheduled = [])
    (ho : g.Reordered h) :
    ∃ a b, analyzeAll g = .ok () a ∧ analyzeAll h = .ok () b ∧
      (∀ id, b.plan id = a.plan id ∧ b.place id = a.place id) ∧
      b.totals.size = a.totals.size ∧ b.totals.fullSize = a.totals.fullSize ∧
      b.scheduled.map b.rank = a.scheduled.map a.rank ∧
      a.InArrivalOrder g.queues.estimated ∧ b.InArrivalOrder h.queues.estimated ∧
      ((∀ i ∈ a.scheduled, ∀ j ∈ a.scheduled, a.rank i = a.rank j → i = j) →
        b.scheduled = a.scheduled) := by
  have he' : h.scheduled = [] := ho.scheduled.trans he
  obtain ⟨_, a, hruna, hda⟩ := (leads_analyzeAll hg he).exists_ok
  obtain ⟨_, b, hrunb, hdb⟩ := (leads_analyzeAll hh he').exists_ok
  obtain ⟨hra, haa⟩ := (leads_analyzeAll_arrive hg he).ok hruna
  obtain ⟨hrb, hab⟩ := (leads_analyzeAll_arrive hh he').ok hrunb
  have hmem : ∀ id, id ∈ h.queues.estimated ↔ id ∈ g.queues.estimated :=
    fun id => ho.estimated.mem_iff
  have hplan : ∀ id, b.plan id = a.plan id := fun id => by
    simp only [hab.plan, haa.plan, hmem, ho.plan]
  have hplace : ∀ id, b.place id = a.place id := fun id => by
    simp only [hab.place, haa.place, hmem, ho.plan, ho.place hg hh]
  have hperm : b.scheduled.Perm a.scheduled := by
    refine (List.perm_ext_iff_of_nodup hdb.orderly.sound.nodup_scheduled
      hda.orderly.sound.nodup_scheduled).mpr fun id => ?_
    rw [hdb.orderly.sound.mem_scheduled, hda.orderly.sound.mem_scheduled, hplace]
  have hmedia : b.media = a.media := by
    rw [hdb.media, hda.media, ho.rest]
  have hsum : ∀ f, sumOver f b = sumOver f a := fun f =>
    sumOver_congr hda.orderly.sound hdb.orderly.sound (fun id => by rw [hplace])
      fun id _ => by rw [hplan]
  obtain ⟨hsizea, hfulla⟩ := exact_iff.mp hda.orderly.exact
  obtain ⟨hsizeb, hfullb⟩ := exact_iff.mp hdb.orderly.exact
  obtain ⟨hranks, hsame⟩ := scheduled_eq_of_ranks hra hrb hperm hplan
  refine ⟨a, b, hruna, hrunb, fun id => ⟨hplan id, hplace id⟩, ?_, ?_, hranks,
    haa.inArrivalOrder he, hab.inArrivalOrder he', hsame⟩
  · rw [hsizea, hsizeb, hmedia, hsum]
  · rw [hfulla, hfullb, hsum]

def answeredFor (n : Night) (ids : List Nat) : Night := ids.foldl (fun n id => withSize n id 100) n

theorem sound_answeredFor (hs : n.Sound) (hd : ids.Nodup)
    (hids : ∀ id ∈ ids, id < n.plans.length ∧ n.place id = none) : (answeredFor n ids).Sound := by
  induction ids generalizing n with
  | nil => exact hs
  | cons id ids ih =>
    obtain ⟨hnew, hd⟩ := List.nodup_cons.mp hd
    obtain ⟨hid, hp⟩ := hids id List.mem_cons_self
    refine ih ((hs.join hid hp).setPlan _) hd fun j hj => ?_
    obtain ⟨hj', hpj⟩ := hids j (List.mem_cons_of_mem id hj)
    refine ⟨by simpa [withSize] using hj', ?_⟩
    have hplace : (n.withQueues (n.queues.join .estimated id)).place j =
        if j = id then some .estimated else n.place j := hs.place_join hid hp j
    rw [if_neg (ne_of_mem_of_not_mem hj hnew), hpj] at hplace
    exact hplace

def twoDisks : Night :=
  match Night.begin {} [Disk.plain "alpha" "/home" 10 default, Disk.plain "beta" "/srv" 10 default]
    default 0 with
  | .ok n => n
  | .error _ => default

theorem twoDisks_sound : twoDisks.Sound := by
  obtain ⟨n, hbegin, htwo⟩ : ∃ n, Night.begin {} [Disk.plain "alpha" "/home" 10 default,
      Disk.plain "beta" "/srv" 10 default] default 0 = .ok n ∧ twoDisks = n := ⟨_, rfl, rfl⟩
  exact htwo ▸ (fresh_of_begin hbegin).sound

/-- Two dumps of the same size stand in the order in which they were answered for. -/
theorem schedule_of_two_arrivals :
    let g := answeredFor twoDisks [0, 1]
    let h := answeredFor twoDisks [1, 0]
    g.Sound ∧ h.Sound ∧ g.scheduled = [] ∧ g.Reordered h ∧
      ∃ a b, analyzeAll g = .ok () a ∧ analyzeAll h = .ok () b ∧ a.scheduled = [0, 1] ∧
        b.scheduled = [1, 0] ∧ (∀ id, b.plan id = a.plan id) ∧ b.totals.size = a.totals.size := by
  have hids : ∀ id ∈ [0, 1], id < twoDisks.plans.length ∧ twoDisks.place id = none := by decide
  have hg : (answeredFor twoDisks [0, 1]).Sound :=
    sound_answeredFor twoDisks_sound (by decide) hids
  have hh : (answeredFor twoDisks [1, 0]).Sound :=
    sound_answeredFor twoDisks_sound (by decide) (by decide)
  have hordered : (answeredFor twoDisks [0, 1]).Reordered (answeredFor twoDisks [1, 0]) := by
    refine ⟨rfl, List.Perm.swap 0 1 [], fun name hname => ?_⟩
    cases name <;> first | rfl | exact absurd rfl hname
  obtain ⟨a, b, ha, hb, hsame, hsize, -⟩ := schedule_of_any_arrivals hg hh rfl hordered
  refine ⟨hg, hh, rfl, hordered, a, b, ha, hb, ?_, ?_, fun id => (hsame id).1, hsize⟩
  · obtain ⟨a', ha', hscheduled⟩ : ∃ a', analyzeAll (answeredFor twoDisks [0, 1]) = .ok () a' ∧
        a'.scheduled = [0, 1] := ⟨_, rfl, rfl⟩
    cases ha.symm.trans ha'
    exact hscheduled
  · obtain ⟨b', hb', hscheduled⟩ : ∃ b', analyzeAll (answeredFor twoDisks [1, 0]) = .ok () b' ∧
        b'.scheduled = [1, 0] := ⟨_, rfl, rfl⟩
    cases hb.symm.trans hb'
    exact hscheduled

end NightlyBackup
