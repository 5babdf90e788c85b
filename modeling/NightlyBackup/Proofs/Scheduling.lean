import NightlyBackup.Night.Schedule
import NightlyBackup.Proofs.Accounts
import NightlyBackup.Proofs.Choosing

/-!
Drawing up the schedule. Every record with a size gets a dump whose size stands, a place in
schedule order and its share in the accounts; every other record fails. As all scheduled
dumps have sizes that stand, putting one more among them changes nothing but its own place.
-/

namespace NightlyBackup

open Night

/-- A schedule in order: every dump on it can be made, and its accounts are exact. -/
structure Night.Orderly (n : Night) : Prop where
  sound : n.Sound
  planned : ∀ {id}, n.place id = some .scheduled → (n.plan id).Planned
  exact : n.Exact

/-- What becomes of one record keeps a schedule in order, if a dump that is on it then can be
made and the running sizes change by what the record counts for. -/
theorem Night.Orderly.becomes {n m : Night} {id : Nat} {p : DiskPlan} {q : Option QueueName}
    {t : Totals} (hn : n.Orderly) (hb : Becomes id p q (n.withTotals t) m)
    (hp : q = some .scheduled → p.Planned)
    (hsize : t.size + share (fun p => n.media.dumpCost p.dumpMediaSize) (n.plan id) (n.place id) =
      n.totals.size + share (fun p => n.media.dumpCost p.dumpMediaSize) p q)
    (hfull : t.fullSize + share fullShare (n.plan id) (n.place id) =
      n.totals.fullSize + share fullShare p q) : m.Orderly := by
  refine ⟨hb.sound, fun {j} => ?_, hn.exact.becomes hn.sound hb hsize hfull⟩
  exact hb.each (P := fun _ p q => q = some .scheduled → p.Planned) hp (fun _ _ => hn.planned) j

/-- What is noted about a record keeps a schedule in order, if neither the dump nor its size
depends on it. -/
theorem Night.Orderly.setPlan {n : Night} (hn : n.Orderly) (id : Nat) {f : DiskPlan → DiskPlan}
    (hplanned : ∀ p : DiskPlan, p.Planned → (f p).Planned)
    (hf : ∀ p, (f p).dumpMediaSize = p.dumpMediaSize ∧ (f p).isFull = p.isFull) :
    (n.setPlan id f).Orderly := by
  have hs : (n.setPlan id f).Sound := hn.sound.setPlan f
  have hsum : ∀ g : DiskPlan → Nat, (∀ p, g (f p) = g p) →
      sumOver g (n.setPlan id f) = sumOver g n := by
    intro g hg
    refine sumOver_congr hn.sound hs (fun _ => Iff.rfl) fun j _ => ?_
    exact plan_setPlan_cases (P := fun p => g p = g (n.plan j)) (hg _) rfl
  refine ⟨hs, fun {j} hj => ?_, exact_iff.mpr ?_⟩
  · exact plan_setPlan_cases (hplanned _ (hn.planned hj)) (hn.planned hj)
  · obtain ⟨hsize, hfull⟩ := exact_iff.mp hn.exact
    constructor
    · refine hsize.trans (congrArg _ (hsum _ fun p => ?_).symm)
      rw [(hf p).1]
    · refine hfull.trans (hsum _ fun p => ?_).symm
      rw [fullShare, fullShare, (hf p).1, (hf p).2]

/-- To look at a size keeps a schedule in order. -/
theorem Night.Orderly.looked {n : Night} (hn : n.Orderly) (id slot : Nat) :
    (n.setPlan id (·.fixMedia slot)).Orderly :=
  hn.setPlan id (fun _ hp => hp.fixMedia)
    fun _ => ⟨DiskPlan.dumpMediaSize_fixMedia, DiskPlan.isFull_fixMedia⟩

theorem Night.Orderly.reckon {n : Night} (hn : n.Orderly) (what : Option Overflow) :
    (n.reckon what).Orderly :=
  ⟨hn.sound.reckon what, hn.planned, hn.exact.size, hn.exact.fullSize⟩

namespace Planning

variable {n m k : Night} {id slot : Nat} {p : DiskPlan} {q : Option QueueName}
  {fail : Fault → Night → Prop}

/-! ## Sizes that are looked at -/

/-- To look at the size of a planned dump changes nothing. -/
theorem dumpMediaSize_ok (hp : (n.plan id).Planned) :
    dumpMediaSize id n = .ok (n.plan id).dumpMediaSize n := by
  have h : n.setPlan id (·.fixDumpMedia) = n := setPlan_eq_self hp.fixDumpMedia_eq
  show EStateM.Result.ok ((n.setPlan id (·.fixDumpMedia)).plan id).dumpMediaSize
    (n.setPlan id (·.fixDumpMedia)) = _
  rw [h]

theorem fixMedia_keeps (p : DiskPlan) (slot : Nat) :
    (p.fixMedia slot).host = p.host ∧ (p.fixMedia slot).disk.name = p.disk.name :=
  ⟨rfl, rfl⟩

theorem leads_mediaSize? {post : Option Nat → Night → Prop} (hb : Becomes id p q n m)
    (next : ∀ k, Becomes id (p.fixMedia slot) q n k → post (p.mediaSize? slot) k) :
    Leads (mediaSize? id slot) m post fail := by
  simp only [mediaSize?, leads_bind, leads_get, leads_pure]
  refine leads_setPlan hb (fun p => fixMedia_keeps p slot) fun k hk => ?_
  rw [hk.plan, DiskPlan.mediaSize?_fixMedia]
  exact next k hk

/-- The size of a dump at `slot` stands once it has been looked at. -/
theorem leads_dumpMediaSize {post : Nat → Night → Prop} (hb : Becomes id p q n m)
    (hd : p.dump = some slot)
    (next : ∀ k, Becomes id (p.fixMedia slot) q n k → post ((p.mediaSize? slot).getD 0) k) :
    Leads (dumpMediaSize id) m post fail := by
  have hfix : ∀ p : DiskPlan, p.fixDumpMedia.host = p.host ∧
      p.fixDumpMedia.disk.name = p.disk.name := by
    intro p
    unfold DiskPlan.fixDumpMedia
    split <;> exact ⟨rfl, rfl⟩
  simp only [dumpMediaSize, leads_bind, leads_get, leads_pure]
  refine leads_setPlan hb hfix fun k hk => ?_
  have hp : p.fixDumpMedia = p.fixMedia slot := by simp only [DiskPlan.fixDumpMedia, hd]
  rw [hp] at hk
  rw [hk.plan, DiskPlan.dumpMediaSize_fixMedia, DiskPlan.dumpMediaSize_of_dump hd]
  exact next k hk

/-! ## A place in the schedule -/

theorem mem_of_mem_passed {j : Nat} {ids : List Nat} (h : j ∈ passed n id ids) : j ∈ ids := by
  induction ids with
  | nil => cases h
  | cons i ids ih =>
    unfold passed at h
    split at h
    · rw [List.mem_singleton.mp h]
      exact List.mem_cons_self ..
    · rcases List.mem_cons.mp h with rfl | h
      · exact List.mem_cons_self ..
      · exact List.mem_cons_of_mem _ (ih h)

/-- Planned dumps can be compared without a change. -/
theorem fixCompared_ok (hp : (n.plan id).Planned) {members : List Nat}
    (hm : ∀ j ∈ members, (n.plan j).Planned) :
    Leads (fixCompared id members) n (fun _ k => k = n) fail := by
  have hkept : ∀ {j}, (n.plan j).Planned → n.setPlan j (·.fixDumpMedia) = n :=
    fun h => setPlan_eq_self h.fixDumpMedia_eq
  refine leads_forM_keeps (I := fun k => k = n) ?_ rfl
  rintro j hj _ rfl
  simp only [getPlan, leads_bind, leads_get, leads_pure]
  split
  · simp only [setPlan, leads_bind, leads_modify, hkept hp, hkept (hm j hj)]
  · rfl

theorem leads_insertScheduled {post : Unit → Night → Prop} (hb : Becomes id p none n m)
    (hp : p.Planned) (hs : ∀ {j}, j ≠ id → n.place j = some .scheduled → (n.plan j).Planned)
    (next : ∀ k, Becomes id p (some .scheduled) n k → post () k) :
    Leads (insertScheduled id) m post fail := by
  simp only [insertScheduled, leads_bind, leads_get]
  have hid : id < m.queues.registered := by
    rw [hb.sound.registered]
    exact hb.lt
  have hk : Becomes id p (some .scheduled) n (m.withQueues (m.queues.joinAhead .scheduled
    (fun a b => (m.plan a).order (m.plan b) = .lt) id)) := hb.joinAhead
  refine leads_of_ok (onQueues_ok (Queues.insertSorted_ok hid hb.place)) ?_
  refine (fixCompared_ok ?_ fun j hj => ?_).imp ?_
  · rwa [hk.plan]
  · have hj := hb.sound.mem_scheduled.mp (mem_of_mem_passed hj)
    have hne : j ≠ id := by
      intro e
      rw [e, hb.place] at hj
      cases hj
    rw [plan_withQueues, hb.only.plan hne]
    rw [hb.only.place hne] at hj
    exact hs hne hj
  · rintro _ _ rfl
    exact next _ hk

theorem leads_resortScheduled {post : Unit → Night → Prop}
    (hb : Becomes id p (some .scheduled) n m) (hp : p.Planned)
    (hs : ∀ {j}, j ≠ id → n.place j = some .scheduled → (n.plan j).Planned)
    (next : ∀ k, Becomes id p (some .scheduled) n k → post () k) :
    Leads (resortScheduled id) m post fail := by
  simp only [resortScheduled, leads_bind]
  exact leads_remove hb fun k hk => leads_insertScheduled hk hp hs next

/-! ## One disk -/

theorem leads_announcePick {post : Unit → Night → Prop} (hb : Becomes id p q n m)
    (pick : Option Pick) (next : ∀ k, Becomes id p q n k → post () k) :
    Leads (announcePick id pick) m post fail := by
  unfold announcePick
  split
  · simp only [leads_bind, leads_get]
    exact leads_say hb _ next
  · exact next m hb

/-- Looking at the full dump of a disk changes nothing but what stands. -/
theorem leads_fullMediaSize {post : Nat → Night → Prop} (hb : Becomes id p q n m)
    (hp : p.Planned)
    (next : ∀ size p' k, p'.Planned → p'.dumpMediaSize = p.dumpMediaSize →
      p'.isFull = p.isFull → p'.fault = p.fault → Becomes id p' q n k → post size k) :
    Leads (fullMediaSize id) m post fail := by
  simp only [fullMediaSize, mediaSizeAt?, getPlan, leads_bind, leads_get, leads_pure]
  split
  · refine leads_mediaSize? hb fun k hk => ?_
    exact next _ _ k hp.fixMedia DiskPlan.dumpMediaSize_fixMedia DiskPlan.isFull_fixMedia rfl hk
  · exact next _ p m hp rfl rfl rfl hb

def Analysis (p p' : DiskPlan) (q : Option QueueName) : Prop :=
  (p.choose.dump.isSome ∧ q = some .scheduled ∧ p'.Planned) ∨
    (p.choose.dump = none ∧ q = some .failed ∧ p'.fault = some "no estimate")

def Analysed (id : Nat) (n k : Night) : Prop :=
  ∃ p q t, Becomes id p q (n.withTotals t) k ∧ Analysis (n.plan id) p q ∧
    t.size = n.totals.size + share (fun p => n.media.dumpCost p.dumpMediaSize) p q ∧
    t.fullSize = n.totals.fullSize + share fullShare p q

theorem takeChoice_planned {choice : Choice} (hc : p.Choosable choice)
    (hd : choice.dump = some slot) : ((takeChoice choice p).fixMedia slot).Planned := by
  have hdump : (takeChoice choice p).dump = some slot := hd
  refine ⟨⟨slot, hd, ?_⟩, fun hs => ?_, fun hs => ?_⟩
  · rw [DiskPlan.Sized, DiskPlan.mediaSize?_fixMedia]
    exact hc.dump hd
  · rw [DiskPlan.dump_fixMedia, hdump] at hs
    cases hs
    exact DiskPlan.standsAt_fixMedia _ slot
  · rw [DiskPlan.Sized, DiskPlan.mediaSize?_fixMedia, DiskPlan.levelAt?_fixMedia]
    exact hc.degraded hs

/-- Counting for the balance and repeating what the host said leave the accounts alone. -/
theorem leads_noteDump {t : Totals} (hb : Becomes id p q (n.withTotals t) m)
    (fullSize : Option Nat) (fault : Option String) :
    Leads (noteDump id fullSize fault) m (fun _ k => ∃ t', Becomes id p q (n.withTotals t') k ∧
      t'.size = t.size ∧ t'.fullSize = t.fullSize) fail := by
  have ht : m.totals.size = t.size := hb.alike.totals.size
  have htf : m.totals.fullSize = t.fullSize := hb.alike.totals.fullSize
  simp only [noteDump]
  cases fault with
  | none =>
    cases fullSize with
    | none => exact ⟨t, hb, rfl, rfl⟩
    | some fullSize => exact leads_bind.mpr (leads_modify.mpr ⟨_, hb.withTotals _, ht, htf⟩)
  | some fault =>
    cases fullSize with
    | none =>
      simp only [leads_bind, leads_get]
      exact leads_say hb _ fun k hk => ⟨t, hk, rfl, rfl⟩
    | some fullSize =>
      simp only [countShare, leads_bind, leads_get, leads_modify]
      exact leads_say (hb.withTotals _) _ fun k hk => ⟨_, hk, ht, htf⟩

theorem leads_analyze (hb : Becomes id p none n m) (hp : n.plan id = p)
    (hs : ∀ {j}, j ≠ id → n.place j = some .scheduled → (n.plan j).Planned) :
    Leads (analyze id) m (fun _ k => Analysed id n k) fail := by
  simp only [analyze, scheduleChosen, getPlan, leads_bind, leads_get, leads_pure, leads_reckon,
    hb.plan]
  refine leads_announcePick (hb.reckon _) _ fun m hb => ?_
  split
  · rename_i hd
    refine leads_failUnqueued hb _ fun k hk => ?_
    exact ⟨_, _, n.totals, hk, Or.inr ⟨hp ▸ hd, rfl, rfl⟩, rfl, rfl⟩
  · rename_i slot hd
    simp only [leads_bind]
    refine leads_setPlan hb (fun _ => ⟨rfl, rfl⟩) fun m hb => ?_
    refine leads_dumpMediaSize hb hd fun m hb => ?_
    have hplanned := takeChoice_planned (DiskPlan.choose_choosable p) hd
    -- Whatever is looked at meanwhile, the dump is scheduled with its size.
    have hrest : ∀ fullSize p' m, p'.Planned → p'.dumpMediaSize =
        ((takeChoice p.choose p).mediaSize? slot).getD 0 → Becomes id p' none n m →
        Leads (insertScheduled id) m (fun _ k => Leads (countDump id
          (((takeChoice p.choose p).mediaSize? slot).getD 0)) k (fun _ l =>
            Leads (noteDump id fullSize ((takeChoice p.choose p).fixMedia slot).fault) l
              (fun _ k => Analysed id n k) fail) fail) fail := by
      intro fullSize p' m hp' hsize hb
      refine leads_insertScheduled hb hp' hs fun k hk => ?_
      simp only [countDump, leads_modify]
      apply (leads_noteDump (hk.withTotals _) _ _).imp
      rintro _ l ⟨t, hl, ht, htf⟩
      refine ⟨p', some .scheduled, t, hl, Or.inl ⟨?_, rfl, hp'⟩, ?_, ?_⟩
      · rw [hp, hd]
        rfl
      · rw [ht, ← hk.alike.totals.size, hk.alike.media, ← hsize]
        rfl
      · rw [htf, hk.plan, ← hk.alike.totals.fullSize, ← hsize]
        simp only [share, fullShare, if_true]
        split <;> rfl
    simp only [leads_get, leads_pure, hb.plan]
    have hsize : ((takeChoice p.choose p).fixMedia slot).dumpMediaSize =
        ((takeChoice p.choose p).mediaSize? slot).getD 0 := by
      rw [DiskPlan.dumpMediaSize_fixMedia, DiskPlan.dumpMediaSize_of_dump hd]
    split
    · simp only [leads_bind, leads_map]
      refine leads_fullMediaSize hb hplanned fun size p' k hp' hs' _ _ hk => ?_
      exact hrest _ p' k hp' (hs'.trans hsize) hk
    · simp only [leads_bind]
      exact hrest _ _ m hplanned hsize hb

/-! ## All disks -/

/-- The schedule of `a` has been drawn up from the night `g`. -/
structure Drawn (g a : Night) : Prop where
  orderly : a.Orderly
  same : g.SameDisks a
  skipped : a.skipped = g.skipped
  media : a.media = g.media
  others : ∀ {id}, g.place id ≠ some .estimated → a.place id = g.place id ∧ a.plan id = g.plan id
  each : ∀ {id}, g.place id = some .estimated → Analysis (g.plan id) (a.plan id) (a.place id)

theorem Analysis.place {p p' : DiskPlan} {q : Option QueueName} (h : Analysis p p' q) :
    q = some .scheduled ∨ (q = some .failed ∧ p'.fault.isSome) := by
  rcases h with ⟨-, hq, -⟩ | ⟨-, hq, hfault⟩
  · exact Or.inl hq
  · exact Or.inr ⟨hq, by rw [hfault]; rfl⟩

theorem leads_analyzeNext (hn : n.Orderly) (hp : n.place id = some .estimated) :
    Leads (analyzeNext id) n (fun _ k => Analysed id n k) fail := by
  have hb := Becomes.refl hn.sound (hn.sound.lt_of_place hp)
  rw [hp] at hb
  simp only [analyzeNext, leads_bind]
  exact leads_remove hb fun k hk => leads_analyze hk rfl fun _ => hn.planned

/-- A disk that was analysed is on the schedule, which stays in order, or has failed. -/
theorem Analysed.orderly (hn : n.Orderly) (hp : n.place id = some .estimated)
    (hk : Analysed id n k) : k.Orderly ∧ Analysis (n.plan id) (k.plan id) (k.place id) := by
  obtain ⟨p, q, t, hb, hq, hsize, hfull⟩ := hk
  have hzero : ∀ f, share f (n.plan id) (n.place id) = 0 := by
    intro f
    rw [share, hp, if_neg (by simp)]
  refine ⟨hn.becomes hb (fun e => ?_) (by rw [hzero, hsize, Nat.add_zero])
    (by rw [hzero, hfull, Nat.add_zero]), ?_⟩
  · rcases hq with ⟨-, -, hp⟩ | ⟨-, e', -⟩
    · exact hp
    · cases e.symm.trans e'
  · rw [hb.place, hb.plan]
    exact hq

/-- An empty schedule is in order. -/
theorem empty_orderly {g : Night} (hs : g.Sound) (he : g.scheduled = []) {t : Totals}
    (hsize : t.size = g.media.emptyTape) (hfull : t.fullSize = 0) : (g.withTotals t).Orderly := by
  refine ⟨hs.withTotals t, fun {id} h => ?_, ⟨?_, ?_⟩⟩
  · have hm : id ∈ g.scheduled := hs.mem_scheduled.mpr h
    simp [he] at hm
  · show t.size = g.media.emptyTape + totalSize (g.scheduled.map _)
    rw [he, hsize]
    rfl
  · show t.fullSize = totalSize ((g.scheduled.filter _).map _)
    rw [he, hfull]
    rfl

theorem leads_analyzeEach {g : Night} {t : Totals} (hg : (g.withTotals t).Orderly) :
    Leads (g.queues.estimated.forM analyzeNext) (g.withTotals t) (fun _ k => Drawn g k) fail := by
  have hs : g.Sound := ⟨hg.sound.valid, hg.sound.registered⟩
  refine (leads_forM_each (s := g.withTotals t)
    (I := fun k => k.Orderly ∧ g.SameDisks k ∧ k.skipped = g.skipped ∧ k.media = g.media ∧
      ∀ {id}, g.place id ≠ some .estimated → k.place id = g.place id ∧ k.plan id = g.plan id)
    (P := fun id k => k.place id = some .estimated ∧ k.plan id = g.plan id)
    (Q := fun id k => Analysis (g.plan id) (k.plan id) (k.place id))
    (hs.valid.nodup .estimated) ?_ ⟨hg, ⟨rfl, fun _ => rfl, fun _ => rfl, rfl, fun _ => rfl,
      fun _ => rfl⟩, rfl, rfl, fun _ => ⟨rfl, rfl⟩⟩
    fun id hid => ⟨hs.place_iff.mpr hid, rfl⟩).imp ?_
  · rintro id hid k ⟨hk, hsame, hskip, hmedia, hothers⟩ ⟨hp, hplan⟩
    apply (leads_analyzeNext hk hp).imp
    rintro _ l hl
    obtain ⟨horderly, hq⟩ := hl.orderly hk hp
    obtain ⟨p, q, t, hb, -⟩ := hl
    refine ⟨⟨horderly, hsame.trans ((sameDisks_withTotals k t).trans hb.only.same),
      hb.alike.skipped.trans hskip, hb.alike.media.trans hmedia, fun {j} hj => ?_⟩,
      hplan ▸ hq, fun j _ hj => ?_⟩
    · have hne : j ≠ id := by
        rintro rfl
        exact hj (hs.place_iff.mpr hid)
      rw [hb.only.place hne, hb.only.plan hne]
      exact hothers hj
    · rw [hb.only.place hj, hb.only.plan hj]
      exact ⟨fun h => h, fun h => h⟩
  · rintro _ k ⟨⟨hk, hsame, hskip, hmedia, hothers⟩, hall⟩
    exact ⟨hk, hsame, hskip, hmedia, hothers, fun hp => hall _ (hs.place_iff.mp hp)⟩

/-- Other running sizes than those of the accounts do not matter. -/
theorem Drawn.withTotals {g a : Night} (h : Drawn g a) {t : Totals}
    (hsize : t.size = a.totals.size) (hfull : t.fullSize = a.totals.fullSize) :
    Drawn g (a.withTotals t) :=
  ⟨⟨h.orderly.sound.withTotals t, h.orderly.planned, ⟨hsize.trans h.orderly.exact.size,
    hfull.trans h.orderly.exact.fullSize⟩⟩, h.same.trans (sameDisks_withTotals a t), h.skipped,
    h.media, h.others, h.each⟩

/-- **The schedule.** Every disk with a size is scheduled or fails, and the accounts of the
schedule are exact. -/
theorem leads_analyzeAll {g : Night} (hs : g.Sound) (he : g.scheduled = []) :
    Leads analyzeAll g (fun _ a => Drawn g a) fail := by
  simp only [analyzeAll, leads_bind, leads_modify, leads_get]
  exact (leads_analyzeEach (empty_orderly hs he rfl rfl)).imp fun _ _ hk => hk.withTotals rfl rfl

def withSize (n : Night) (id kb : Nat) : Night :=
  (n.withQueues (n.queues.join .estimated id)).setPlan id fun p =>
    { p with levels := [{ level := 0, watermark := "", size := .sized kb }] }

/-- A schedule of one dump: besides the dump it takes the label, the end mark and the overhead of
one file. -/
theorem analyzeAll_of_one_size : ∃ g a, g.Sound ∧ g.scheduled = [] ∧
    g.media = Media.ofSettings {} ∧ analyzeAll g = .ok () a ∧ a.scheduled = [0] ∧
    a.totals.size = 199 ∧ (a.plan 0).dumpMediaSize = 100 := by
  obtain ⟨n, a, hbegin, hlt, hplace, he, hmedia, ha, hscheduled, hsize, hdump⟩ :
      ∃ n a, Night.begin {} [Disk.plain "alpha" "/home" 10 default] default 0 = .ok n ∧
        0 < n.plans.length ∧ n.place 0 = none ∧ (withSize n 0 100).scheduled = [] ∧
        (withSize n 0 100).media = Media.ofSettings {} ∧
        analyzeAll (withSize n 0 100) = .ok () a ∧ a.scheduled = [0] ∧
        a.totals.size = 199 ∧ (a.plan 0).dumpMediaSize = 100 :=
    ⟨_, _, rfl, Nat.one_pos, rfl, rfl, rfl, rfl, rfl, rfl, rfl⟩
  have hs : (withSize n 0 100).Sound := ((fresh_of_begin hbegin).sound.join hlt hplace).setPlan _
  exact ⟨withSize n 0 100, a, hs, he, hmedia, ha, hscheduled, hsize, hdump⟩

end Planning

end NightlyBackup
