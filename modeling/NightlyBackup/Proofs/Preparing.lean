import NightlyBackup.Proofs.Asking
import NightlyBackup.Proofs.Becoming

/-!
Preparing a disk puts its record in one of three places: on the start queue to be asked
about, on the failed queue with a reason, or on the list of those that are left out, off
every queue. Nothing else of the night changes but what the operator is told.
-/

namespace NightlyBackup

namespace Planning

open Night

variable {n m : Night} {id : Nat} {fail : Fault → Night → Prop}

inductive Prepared (n : Night) (id : Nat) : Prop
  | toAsk (place : n.place id = some .start) (kept : n.skips id = 0)
    (asked : (n.plan id).question.Asked)
  | failed (place : n.place id = some .failed) (fault : (n.plan id).fault.isSome)
      (kept : n.skips id = 0)
  | leftOut (place : n.place id = none) (skipped : n.skips id = 1)

/-- A record is left out: it is listed once more, and stays where it is. -/
theorem leads_skip (id level : Nat) (reason : String) (hs : n.Sound) :
    Leads (skip id level reason) n (fun _ m =>
      m.Sound ∧ OnlyAt id n m ∧ m.hosts = n.hosts ∧ m.place id = n.place id ∧
        m.skips id = n.skips id + 1 ∧ m.plan id = n.plan id) fail := by
  refine ⟨⟨hs.valid, hs.registered⟩, ⟨⟨rfl, fun _ => rfl, fun _ => rfl, rfl, fun _ => rfl,
    fun _ => rfl⟩, fun _ => rfl, fun _ => rfl, ?_⟩, rfl, rfl, ?_, rfl⟩
  · intro j hj
    show (n.skipped ++ [_]).countP _ = n.skipped.countP _
    simp [List.countP_append, hj.symm]
  · show (n.skipped ++ [_]).countP _ = n.skipped.countP _ + 1
    simp [List.countP_append]

/-- What preparing makes of the record `id` of `n`, by the verdict on its disk. Before the verdict
at most how the disk is dumped has changed. -/
inductive Verdicted (n : Night) (id : Nat) (history : History) (k : Night) : Prop
  | asked (s : Settings) (r : Rotation) (today : Int) (runs : Nat) {d : Disk} {o : Outlook}
    {levels : List Nat} (judged : (Outlook.ofHistory (n.plan id).disk history r s.reserve
      today).judge s r = (o, .ask levels)) (strategy : d.strategy = (n.plan id).disk.strategy)
    (becomes : Becomes id (takeOutlook o levels runs { n.plan id with disk := d }) (some .start)
      n k)
  | failed (d : Disk) (reason : String)
    (becomes : Becomes id { n.plan id with disk := d, fault := some reason } (some .failed) n k)
  | leftOut (d : Disk) (sound : k.Sound) (only : OnlyAt id n k) (hosts : k.hosts = n.hosts)
    (place : k.place id = none) (skips : k.skips id = n.skips id + 1)
    (plan : k.plan id = { n.plan id with disk := d })

theorem leads_enterVerdict {history : History} (s : Settings) (r : Rotation) (today : Int)
    {d : Disk} {o : Outlook} {verdict : Verdict}
    (hb : Becomes id { n.plan id with disk := d } none n m)
    (hstrategy : d.strategy = (n.plan id).disk.strategy)
    (hj : (Outlook.ofHistory (n.plan id).disk history r s.reserve today).judge s r = (o, verdict))
    (runs : Nat) : Leads (enterVerdict id o runs verdict) m
      (fun _ k => Verdicted n id history k) fail := by
  cases verdict with
  | fail reason => exact leads_failUnqueued hb reason fun k hk => .failed d reason hk
  | leaveOut level reason =>
    refine (leads_skip id level reason hb.sound).imp ?_
    rintro _ k ⟨hs, ho, hh, hp, hk, hplan⟩
    have hskips : m.skips id = n.skips id := congrArg (List.countP _) hb.alike.skipped
    exact .leftOut d hs (hb.only.trans ho) (hh.trans hb.alike.hosts) (hp.trans hb.place)
      (hk.trans (congrArg (· + 1) hskips)) (hplan.trans hb.plan)
  | ask levels =>
    simp only [enterVerdict, leads_bind]
    refine leads_setPlan hb (fun _ => ⟨rfl, rfl⟩) fun k hk => ?_
    exact leads_enqueue hk fun l hl => .asked s r today runs hj hstrategy hl

theorem bypassHolding_keeps (p : DiskPlan) : (bypassHolding p).host = p.host ∧
    (bypassHolding p).disk.name = p.disk.name ∧
      (bypassHolding p).disk.strategy = p.disk.strategy ∧
        bypassHolding p = { p with disk := (bypassHolding p).disk } := by
  unfold bypassHolding
  split <;> exact ⟨rfl, rfl, rfl, rfl⟩

theorem leads_judge (hb : Becomes id (n.plan id) none n m) (history : History) :
    Leads (judge id history) m (fun _ k => Verdicted n id history k) fail := by
  obtain ⟨-, -, hstrategy, hbypassed⟩ := bypassHolding_keeps (n.plan id)
  simp only [judge, leads_bind, leads_get]
  refine leads_setPlan hb
    (fun p => ⟨(bypassHolding_keeps p).1, (bypassHolding_keeps p).2.1⟩) fun k hk => ?_
  rw [leads_reckon]
  refine (leads_forM_keeps (I := fun k => Becomes id (bypassHolding (n.plan id)) none n k)
    (fun e _ _ hk => leads_say hk e fun _ hk => hk) (hk.reckon _)).imp fun _ k hk => ?_
  refine leads_enterVerdict m.settings m.rotation m.today (hbypassed ▸ hk) hstrategy ?_ _
  rw [hb.plan]

/-- **Verdicts.** Preparing a free record ends as the verdict on its disk says, without a fault. -/
theorem leads_prepare_verdicted (hs : n.Sound) (hid : id < n.plans.length)
    (hp : n.place id = none) (history : Option History) :
    Leads (prepare id history) n (fun _ k => Verdicted n id (history.getD {}) k) fail := by
  have hn : Becomes id (n.plan id) none n n := hp ▸ Becomes.refl hs hid
  have hfails : ∀ {m} (reason : String), Becomes id (n.plan id) none n m →
      Leads (failUnqueued id reason) m (fun _ k => Verdicted n id (history.getD {}) k) fail :=
    fun reason hm => leads_failUnqueued hm reason fun k hk => .failed (n.plan id).disk reason hk
  simp only [prepare, leads_bind, leads_get]
  cases (n.plan id).disk.refusal? with
  | some reason =>
    split
    · exact hfails reason (hn.say _)
    · exact hfails reason hn
  | none =>
    split
    · exact leads_judge (hn.say _) _
    · exact leads_judge hn _

/-- What is reached with a record when its verdict is in. -/
def Decided (id : Nat) (n m : Night) : Prop :=
  m.Sound ∧ OnlyAt id n m ∧ m.hosts = n.hosts ∧
    (m.plan id).progress = (n.plan id).progress ∧ Prepared m id

theorem Verdicted.decided {history : History} (h : Verdicted n id history m)
    (hk : n.skips id = 0) : Decided id n m := by
  have hskips : m.skipped = n.skipped → m.skips id = 0 := fun e => by
    rw [Night.skips, e]
    exact hk
  cases h with
  | asked s r today runs judged strategy becomes =>
    have hasked := Outlook.asked_of_judge (Outlook.fits_ofHistory ..) judged
      (p := { n.plan id with disk := _ }) strategy runs
    exact ⟨becomes.sound, becomes.only, becomes.alike.hosts, by rw [becomes.plan]; rfl,
      .toAsk becomes.place (hskips becomes.alike.skipped) (becomes.plan ▸ hasked)⟩
  | failed d reason becomes =>
    exact ⟨becomes.sound, becomes.only, becomes.alike.hosts, by rw [becomes.plan],
      .failed becomes.place (by rw [becomes.plan]; rfl) (hskips becomes.alike.skipped)⟩
  | leftOut d sound only hosts place skips plan =>
    exact ⟨sound, only, hosts, by rw [plan], .leftOut place (by rw [skips, hk])⟩

/-- Preparing a free record decides about it and about no other. -/
theorem leads_prepare (hs : n.Sound) (hid : id < n.plans.length) (hp : n.place id = none)
    (hk : n.skips id = 0) (history : Option History) :
    Leads (prepare id history) n (fun _ m => Decided id n m) fail :=
  (leads_prepare_verdicted hs hid hp history).imp fun _ _ h => h.decided hk

/-! ## All disks -/

theorem Prepared.congr {j : Nat} (hp : m.place j = n.place j) (hk : m.skips j = n.skips j)
    (hplan : m.plan j = n.plan j) (h : Prepared n j) : Prepared m j := by
  cases h with
  | toAsk place kept asked => exact .toAsk (hp.trans place) (hk.trans kept) (hplan ▸ asked)
  | failed place fault kept => exact .failed (hp.trans place) (hplan ▸ fault) (hk.trans kept)
  | leftOut place skipped => exact .leftOut (hp.trans place) (hk.trans skipped)

/-- A night whose disks have been prepared, from the night `n` that has just begun. -/
structure SetUp (n m : Night) : Prop where
  sound : m.Sound
  same : n.SameDisks m
  hosts : m.hosts = n.hosts
  progress : ∀ id, (m.plan id).progress = .ready
  prepared : ∀ {id}, id < m.plans.length → Prepared m id

/-- **Preparation.** Every disk is prepared, unless the history of one cannot be read. -/
theorem leads_prepareAll {disks : List Disk} (hn : n.Fresh disks) (store : Store) :
    Leads (prepareAll store) n (fun _ m => SetUp n m)
      (fun e _ => ∃ d ∈ disks, ∃ fault,
        store.history? d.host d.name = .error fault ∧ e = .history fault) := by
  simp only [prepareAll, leads_bind, leads_get]
  refine (leads_forM_each
    (I := fun m => m.Sound ∧ n.SameDisks m ∧ m.hosts = n.hosts ∧
      ∀ id, (m.plan id).progress = .ready)
    (P := fun id m => m.place id = none ∧ m.skips id = 0)
    (Q := fun id m => Prepared m id)
    List.nodup_range ?_ ⟨hn.sound, .refl n, rfl, hn.progress⟩ ?_).imp ?_
  · rintro id hid m ⟨hs, hsame, hh, hready⟩ ⟨hp, hk⟩
    have hlt : id < m.plans.length := by
      rw [hsame.length]
      simpa [records] using hid
    simp only [prepareFrom, leads_bind, leads_get]
    split
    · rename_i fault hfault
      have ht : n.title id ∈ disks.map fun d => (d.host, d.name) :=
        hn.titles ▸ List.mem_map_of_mem hid
      obtain ⟨d, hd, he⟩ := List.mem_map.mp ht
      obtain ⟨hhost, hdisk⟩ := Prod.mk.inj he
      refine ⟨d, hd, fault, ?_, rfl⟩
      rw [hhost, hdisk, ← hfault]
      simp only [hostName, diskName, hsame.owner, hsame.hostName, hsame.diskName]
    · apply (leads_prepare hs hlt hp hk _).imp
      rintro _ k ⟨hks, ho, hkh, hprog, hdone⟩
      refine ⟨⟨hks, hsame.trans ho.same, hkh.trans hh, ?_⟩, hdone, ?_⟩
      · intro j
        by_cases hj : j = id
        · rw [hj, hprog, hready]
        · rw [ho.plan hj, hready]
      · intro j _ hj
        exact ⟨fun h => ⟨(ho.place hj).trans h.1, (ho.skips hj).trans h.2⟩,
          fun h => h.congr (ho.place hj) (ho.skips hj) (ho.plan hj)⟩
  · intro id _
    exact ⟨hn.place id, by simp [skips, hn.skipped]⟩
  · rintro _ m ⟨⟨hs, hsame, hh, hready⟩, hall⟩
    refine ⟨hs, hsame, hh, hready, fun {id} hid => hall id ?_⟩
    rw [hsame.length] at hid
    simpa [records] using hid

/-- What preparing a disk from its history leads to, preparing all disks leads to for each. -/
theorem leads_prepareAll_each {disks : List Disk} (hn : n.Fresh disks) (store : Store)
    {Q : Nat → DiskPlan → Option QueueName → Prop}
    (step : ∀ id < n.plans.length, ∀ m history, m.Sound → id < m.plans.length →
      m.place id = none → m.plan id = n.plan id →
      store.history? (n.hostName id) (n.diskName id) = .ok history →
      Leads (prepare id history) m (fun _ k => Q id (k.plan id) (k.place id)) anyhow) :
    Leads (prepareAll store) n (fun _ m => ∀ id < n.plans.length, Q id (m.plan id) (m.place id))
      anyhow := by
  simp only [prepareAll, leads_bind, leads_get]
  refine (leads_forM_each (I := fun m => m.Sound ∧ n.SameDisks m)
    (P := fun id m => m.place id = none ∧ m.skips id = 0 ∧ m.plan id = n.plan id)
    (Q := fun id m => Q id (m.plan id) (m.place id))
    List.nodup_range ?_ ⟨hn.sound, .refl n⟩ ?_).imp ?_
  · rintro id hid m ⟨hs, hsame⟩ ⟨hp, hk, hplan⟩
    have hid : id < n.plans.length := by simpa [records] using hid
    have hlt : id < m.plans.length := hsame.length ▸ hid
    have htitle := Prod.mk.inj (hsame.title id)
    simp only [prepareFrom, leads_bind, leads_get]
    split
    · trivial
    · rename_i history hhistory
      rw [htitle.1, htitle.2] at hhistory
      refine ((leads_prepare hs hlt hp hk history : Leads _ _ _ anyhow).and
        (step id hid m history hs hlt hp hplan hhistory)).mono ?_ fun _ _ hf => hf.1
      rintro _ k ⟨⟨hks, ho, -⟩, hq⟩
      refine ⟨⟨hks, hsame.trans ho.same⟩, hq, fun j _ hj => ?_⟩
      rw [ho.place hj, ho.skips hj, ho.plan hj]
      exact ⟨fun h => h, fun h => h⟩
  · intro id _
    exact ⟨hn.place id, by simp [skips, hn.skipped], rfl⟩
  · rintro _ m ⟨-, hall⟩ id hid
    exact hall id (by simpa [records] using hid)

/-! ## What preparation keeps of every plan -/

/-- What holds of a plan still holds when its disk fails, does without the holding disk, or has
levels that are asked for. -/
structure KeptByPreparing (I : Nat → DiskPlan → Prop) : Prop where
  failed : ∀ {id p} (reason : String), I id p → I id { p with fault := some reason }
  bypassed : ∀ {id p}, I id p → I id (bypassHolding p)
  asked : ∀ {id p} {d : Disk} {o o' : Outlook} {s : Settings} {r : Rotation} {levels : List Nat}
    (runs : Nat), I id p → o.Fits d → d.strategy = p.disk.strategy →
    d.skipFull = p.disk.skipFull → o.judge s r = (o', .ask levels) →
    I id (takeOutlook o' levels runs p)

namespace KeptByPreparing

variable {I : Nat → DiskPlan → Prop}

theorem setPlan {f : DiskPlan → DiskPlan} (hm : ∀ j, I j (m.plan j))
    (hf : I id (f (m.plan id))) (j : Nat) : I j ((m.setPlan id f).plan j) := by
  by_cases hj : j = id
  · subst hj
    exact plan_setPlan_cases hf (hm j)
  · rw [plan_setPlan_of_ne hj]
    exact hm j

theorem failUnqueued (hI : KeptByPreparing I) (hm : ∀ j, I j (m.plan j)) (reason : String) :
    Leads (failUnqueued id reason) m (fun _ k => ∀ j, I j (k.plan j)) anyhow := by
  simp only [Planning.failUnqueued, enqueue, leads_bind, Planning.setPlan, leads_modify]
  exact leads_onQueues fun _ => setPlan hm (hI.failed reason (hm id))

theorem enterVerdict (hI : KeptByPreparing I) (hm : ∀ j, I j (m.plan j)) {d : Disk}
    {o o' : Outlook} {s : Settings} {r : Rotation} {verdict : Verdict} (ho : o.Fits d)
    (hstrategy : d.strategy = (m.plan id).disk.strategy)
    (hskip : d.skipFull = (m.plan id).disk.skipFull) (hj : o.judge s r = (o', verdict))
    (runs : Nat) : Leads (enterVerdict id o' runs verdict) m
      (fun _ k => ∀ j, I j (k.plan j)) anyhow := by
  cases verdict with
  | fail reason => exact hI.failUnqueued hm reason
  | leaveOut level reason => exact hm
  | ask levels =>
    simp only [Planning.enterVerdict, enqueue, Planning.setPlan, leads_bind, leads_modify]
    exact leads_onQueues fun _ => setPlan hm (hI.asked runs (hm id) ho hstrategy hskip hj)

theorem judge (hI : KeptByPreparing I) (hm : ∀ j, I j (m.plan j)) (history : History) :
    Leads (judge id history) m (fun _ k => ∀ j, I j (k.plan j)) anyhow := by
  have hbypassed := setPlan hm (hI.bypassed (hm id))
  have hdisk : ∀ p : DiskPlan, (bypassHolding p).disk.strategy = p.disk.strategy ∧
      (bypassHolding p).disk.skipFull = p.disk.skipFull := by
    intro p
    unfold bypassHolding
    split <;> exact ⟨rfl, rfl⟩
  have hsame : ((m.setPlan id bypassHolding).plan id).disk.strategy = (m.plan id).disk.strategy ∧
      ((m.setPlan id bypassHolding).plan id).disk.skipFull = (m.plan id).disk.skipFull :=
    plan_setPlan_cases (P := fun p => p.disk.strategy = (m.plan id).disk.strategy ∧
      p.disk.skipFull = (m.plan id).disk.skipFull) (hdisk _) ⟨rfl, rfl⟩
  simp only [Planning.judge, Planning.setPlan, leads_bind, leads_get, leads_modify]
  refine (leads_forM_keeps (I := fun k => k.plans = (m.setPlan id bypassHolding).plans)
    (fun e _ k hk => ?_) rfl).imp fun _ k hk => ?_
  · exact hk
  have hplan : k.plan = (m.setPlan id bypassHolding).plan := by
    funext j
    rw [plan, hk]
    rfl
  refine hI.enterVerdict (hplan ▸ hbypassed) (Outlook.fits_ofHistory ..) ?_ ?_ rfl _
  · rw [hplan]
    exact hsame.1.symm
  · rw [hplan]
    exact hsame.2.symm

theorem prepare (hI : KeptByPreparing I) (hm : ∀ j, I j (m.plan j)) (history : Option History) :
    Leads (prepare id history) m (fun _ k => ∀ j, I j (k.plan j)) anyhow := by
  simp only [Planning.prepare, leads_bind, leads_get]
  cases (m.plan id).disk.refusal? with
  | some reason =>
    split
    · exact hI.failUnqueued (m := m.say _) hm reason
    · exact hI.failUnqueued hm reason
  | none =>
    split
    · exact hI.judge (m := m.say _) hm _
    · exact hI.judge hm _

theorem prepareAll (hI : KeptByPreparing I) (hm : ∀ j, I j (m.plan j)) (store : Store) :
    Leads (prepareAll store) m (fun _ k => ∀ j, I j (k.plan j)) anyhow := by
  simp only [Planning.prepareAll, leads_bind, leads_get]
  refine leads_forM_keeps (I := fun k : Night => ∀ j, I j (k.plan j)) (fun id _ m hm => ?_) hm
  simp only [prepareFrom, leads_bind, leads_get]
  split
  · trivial
  · exact hI.prepare hm _

end KeptByPreparing

/-- Nothing is known of a size before it is asked for. -/
theorem pending_kept : KeptByPreparing fun _ p =>
    ∀ e ∈ p.levels, e.size = .pending ∧ e.media = none where
  failed _ h := h
  bypassed {id p} h := by
    unfold bypassHolding
    split <;> exact h
  asked _ _ _ _ _ _ e he := by
    obtain ⟨_, _, rfl⟩ := List.mem_map.mp he
    exact ⟨rfl, rfl⟩

end Planning

end NightlyBackup
