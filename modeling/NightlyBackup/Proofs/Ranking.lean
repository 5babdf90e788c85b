import NightlyBackup.Proofs.Balancing
import NightlyBackup.Proofs.Confining

/-!
The order of the schedule. A record ahead of another one has the higher priority, or the same
priority and a dump that is no smaller. An action about one record may break this order at that
record alone, and every one that does puts the record at its place again before it ends; so
the order stands while the schedule is drawn up, fitted and balanced.
-/

namespace NightlyBackup

open Night Planning Delaying

namespace DiskPlan

variable {p q r : DiskPlan}

def Precedes (p q : DiskPlan) : Prop :=
  q.priority < p.priority ∨ (p.priority = q.priority ∧ q.dumpMediaSize ≤ p.dumpMediaSize)

theorem Precedes.trans (h : p.Precedes q) (h' : q.Precedes r) : p.Precedes r := by
  unfold Precedes at *
  omega

theorem precedes_of_not (h : ¬q.Precedes p) : p.Precedes q := by
  unfold Precedes at *
  omega

theorem order_eq_lt : p.order q = .lt ↔ ¬q.Precedes p := by
  unfold order Precedes
  rw [Ordering.then_eq_lt, Int.compare_eq_lt, Int.compare_eq_eq, Nat.compare_eq_lt]
  omega

def SameRank (p q : DiskPlan) : Prop :=
  q.priority = p.priority ∧ q.dumpMediaSize = p.dumpMediaSize

theorem sameRank_fixMedia (p : DiskPlan) (slot : Nat) : p.SameRank (p.fixMedia slot) :=
  ⟨rfl, dumpMediaSize_fixMedia⟩

theorem sameRank_fixDumpMedia (p : DiskPlan) : p.SameRank p.fixDumpMedia := by
  unfold fixDumpMedia
  split
  · exact sameRank_fixMedia p _
  · exact ⟨rfl, rfl⟩

end DiskPlan

namespace Night

variable {n m : Night} {id j : Nat} {ids : List Nat} {name : QueueName} {out : Option Nat}
  {f : DiskPlan → DiskPlan}

def Ahead (n : Night) (i j : Nat) : Prop := (n.plan i).Precedes (n.plan j)

def Ranked (n : Night) : Prop := n.scheduled.Pairwise n.Ahead

structure RankedBut (out : Option Nat) (n : Night) : Prop where
  sound : n.Sound
  sorted : (n.scheduled.filter fun id => out ≠ some id).Pairwise n.Ahead

theorem rankedBut_none : n.RankedBut none ↔ n.Sound ∧ n.Ranked := by
  have hall : n.scheduled.filter (fun id => none ≠ some id) = n.scheduled :=
    List.filter_eq_self.mpr (by simp)
  refine ⟨fun h => ⟨h.sound, ?_⟩, fun h => ⟨h.1, ?_⟩⟩
  · have hsorted := h.sorted
    rwa [hall] at hsorted
  · rw [hall]
    exact h.2

namespace RankedBut

theorem besides (h : n.RankedBut none) (id : Nat) : n.RankedBut (some id) :=
  ⟨h.sound, (rankedBut_none.mp h).2.filter _⟩

/-- A change that moves no record and keeps the places of all but `out` in schedule order. -/
theorem congr (h : n.RankedBut out) (hs : m.Sound) (hm : m.scheduled.Sublist n.scheduled)
    (hp : ∀ id, out ≠ some id → (n.plan id).SameRank (m.plan id)) : m.RankedBut out := by
  refine ⟨hs, List.Pairwise.imp_of_mem ?_ (h.sorted.sublist (hm.filter _))⟩
  intro i j hi hj hij
  obtain ⟨hip, his⟩ := hp i (of_decide_eq_true (List.mem_filter.mp hi).2)
  obtain ⟨hjp, hjs⟩ := hp j (of_decide_eq_true (List.mem_filter.mp hj).2)
  unfold Ahead DiskPlan.Precedes at *
  rw [hip, his, hjp, hjs]
  exact hij

theorem withTotals (h : n.RankedBut out) (t : Totals) : (n.withTotals t).RankedBut out :=
  h.congr (h.sound.withTotals t) (.refl _) fun _ _ => ⟨rfl, rfl⟩

theorem say (h : n.RankedBut out) (e : Event) : (n.say e).RankedBut out :=
  h.congr ⟨h.sound.valid, h.sound.registered⟩ (.refl _) fun _ _ => ⟨rfl, rfl⟩

theorem setPlan (h : n.RankedBut out) (hf : out = some id ∨ ∀ p : DiskPlan, p.SameRank (f p)) :
    (n.setPlan id f).RankedBut out := by
  refine h.congr (h.sound.setPlan f) (.refl _) fun j hj => ?_
  rcases hf with rfl | hf
  · rw [plan_setPlan_of_ne fun e => hj (congrArg some e.symm)]
    exact ⟨rfl, rfl⟩
  · exact plan_setPlan_cases (P := fun p => (n.plan j).SameRank p) (hf _) ⟨rfl, rfl⟩

theorem leave (h : n.RankedBut out) (hp : n.place id = some name) :
    (n.withQueues (n.queues.leave name id)).RankedBut out := by
  refine h.congr (h.sound.leave hp) ?_ fun _ _ => ⟨rfl, rfl⟩
  have hm := h.sound.members_leave hp .scheduled
  show ((n.queues.leave name id).members .scheduled).Sublist (n.queues.members .scheduled)
  rw [hm]
  split
  · exact List.erase_sublist
  · exact .refl _

/-- A record may join any queue but the schedule. -/
theorem join (h : n.RankedBut out) (hid : id < n.plans.length) (hp : n.place id = none)
    (hname : name ≠ .scheduled) : (n.withQueues (n.queues.join name id)).RankedBut out := by
  refine h.congr (h.sound.join hid hp) ?_ fun _ _ => ⟨rfl, rfl⟩
  have hm : (n.queues.join name id).members .scheduled = _ := h.sound.members_join hid hp .scheduled
  show ((n.queues.join name id).members .scheduled).Sublist (n.queues.members .scheduled)
  rw [hm, if_neg hname.symm]

/-- A record takes its place behind those that it does not sort ahead of. -/
theorem sorted_insertAhead (h : ids.Pairwise n.Ahead) :
    (Queues.insertAhead (fun j => (n.plan id).order (n.plan j) = .lt) id ids).Pairwise n.Ahead := by
  induction ids with
  | nil => exact List.pairwise_singleton ..
  | cons m rest ih =>
    obtain ⟨hm, hrest⟩ := List.pairwise_cons.mp h
    unfold Queues.insertAhead
    split
    · rename_i hlt
      have hahead : n.Ahead id m :=
        DiskPlan.precedes_of_not (DiskPlan.order_eq_lt.mp (of_decide_eq_true hlt))
      refine List.pairwise_cons.mpr ⟨fun j hj => ?_, h⟩
      rcases List.mem_cons.mp hj with rfl | hj
      · exact hahead
      · exact hahead.trans (hm j hj)
    · rename_i hge
      refine List.pairwise_cons.mpr ⟨fun j hj => ?_, ih hrest⟩
      rcases List.mem_cons.mp ((Queues.insertAhead_perm ..).mem_iff.mp hj) with rfl | hj
      · exact Classical.not_not.mp fun hnot =>
          hge (decide_eq_true (DiskPlan.order_eq_lt.mpr hnot))
      · exact hm j hj

/-- The record that was left out takes its place. -/
theorem joinAhead (h : n.RankedBut (some id)) (hid : id < n.plans.length)
    (hp : n.place id = none) : (n.withQueues (n.queues.joinAhead .scheduled
      (fun a b => (n.plan a).order (n.plan b) = .lt) id)).RankedBut none := by
  have hsorted : n.scheduled.Pairwise n.Ahead := by
    have hall : n.scheduled.filter (fun j => some id ≠ some j) = n.scheduled := by
      refine List.filter_eq_self.mpr fun j hj => decide_eq_true ?_
      rintro e
      cases e
      cases hp.symm.trans (h.sound.mem_scheduled.mp hj)
    have hsorted := h.sorted
    rwa [hall] at hsorted
  refine rankedBut_none.mpr ⟨h.sound.joinAhead hid hp, ?_⟩
  have hm : (n.queues.joinAhead .scheduled (fun a b => (n.plan a).order (n.plan b) = .lt)
      id).members .scheduled = _ :=
    (h.sound.valid.holds_joinAhead (h.sound.registered ▸ hid) hp).members_eq
  rw [Function.update_self] at hm
  rw [Ranked, scheduled, Queues.scheduled, queues_withQueues, hm]
  exact sorted_insertAhead hsorted

end RankedBut

end Night

/-! ## Actions -/

variable {n m k f g : Night} {s t : Shrinking} {id slot : Nat} {name : QueueName}
  {out : Option Nat} {reason : String} {image : BeforeImage}

namespace Planning

theorem ranked_dumpMediaSize (h : n.RankedBut out) :
    Leads (dumpMediaSize id) n (fun _ k => k.RankedBut out) anyhow := by
  simp only [dumpMediaSize, Planning.setPlan, leads_bind, leads_modify, leads_get, leads_pure]
  exact h.setPlan (Or.inr DiskPlan.sameRank_fixDumpMedia)

theorem ranked_mediaSize? (h : n.RankedBut out) :
    Leads (mediaSize? id slot) n (fun _ k => k.RankedBut out) anyhow := by
  simp only [mediaSize?, Planning.setPlan, leads_bind, leads_modify, leads_get, leads_pure]
  exact h.setPlan (Or.inr fun p => p.sameRank_fixMedia slot)

theorem ranked_remove (h : n.RankedBut out) :
    Leads (remove name id) n (fun _ k => k.RankedBut out) anyhow := by
  refine leads_anyhow fun _ k hok => ?_
  obtain ⟨hp, rfl⟩ := ok_of_remove hok
  exact h.leave hp

theorem ranked_enqueue (h : n.RankedBut out) (hname : name ≠ .scheduled) :
    Leads (enqueue name id) n (fun _ k => k.RankedBut out) anyhow := by
  refine leads_anyhow fun _ k hok => ?_
  obtain ⟨hid, hp, rfl⟩ := ok_of_enqueue h.sound hok
  exact h.join hid hp hname

theorem ranked_fixCompared {ids : List Nat} (h : n.RankedBut out) :
    Leads (fixCompared id ids) n (fun _ k => k.RankedBut out) anyhow := by
  refine leads_forM_keeps (I := RankedBut out) ?_ h
  intro j _ m hm
  simp only [getPlan, leads_bind, leads_get, leads_pure]
  split
  · simp only [Planning.setPlan, leads_bind, leads_modify]
    exact (hm.setPlan (Or.inr DiskPlan.sameRank_fixDumpMedia)).setPlan
      (Or.inr DiskPlan.sameRank_fixDumpMedia)
  · exact hm

/-- A record that is put on the schedule gets its place there. -/
theorem ranked_insertScheduled (h : n.RankedBut (some id)) :
    Leads (insertScheduled id) n (fun _ k => k.RankedBut none) anyhow := by
  simp only [insertScheduled, leads_bind, leads_get]
  refine leads_anyhow fun _ k hok => ?_
  obtain ⟨hid, hp, rfl⟩ := ok_of_insertSorted h.sound hok
  exact ranked_fixCompared (h.joinAhead hid hp)

theorem ranked_resortScheduled (h : n.RankedBut (some id)) :
    Leads (resortScheduled id) n (fun _ k => k.RankedBut none) anyhow := by
  simp only [resortScheduled, leads_bind]
  apply (ranked_remove h).imp
  intro _ k hk
  exact ranked_insertScheduled hk

/-! ## Drawing up the schedule -/

theorem ranked_say (h : n.RankedBut out) (e : Event) :
    Leads (say e) n (fun _ k => k.RankedBut out) anyhow :=
  leads_modify.mpr (h.say e)

theorem ranked_announcePick (h : n.RankedBut out) (pick : Option Pick) :
    Leads (announcePick id pick) n (fun _ k => k.RankedBut out) anyhow := by
  unfold announcePick
  split
  · simp only [leads_bind, leads_get]
    exact ranked_say h _
  · exact h

theorem ranked_fullMediaSize (h : n.RankedBut out) :
    Leads (fullMediaSize id) n (fun _ k => k.RankedBut out) anyhow := by
  simp only [fullMediaSize, mediaSizeAt?, getPlan, leads_bind, leads_get, leads_pure]
  split
  · exact ranked_mediaSize? h
  · exact h

theorem ranked_noteDump (h : n.RankedBut out) (fullSize : Option Nat) (fault : Option String) :
    Leads (noteDump id fullSize fault) n (fun _ k => k.RankedBut out) anyhow := by
  have hwarn : ∀ {m : Night} (fault : String), m.RankedBut out → Leads (do
      let n ← get
      warn (n.hostName id ++ ":" ++ n.diskName id ++ " " ++ fault)) m
      (fun _ k => k.RankedBut out) anyhow := by
    intro m fault hm
    simp only [leads_bind, leads_get]
    exact ranked_say hm _
  simp only [noteDump]
  cases fullSize with
  | none =>
    cases fault with
    | none => exact h
    | some fault => exact hwarn fault h
  | some fullSize =>
    refine leads_bind.mpr (leads_modify.mpr ?_)
    cases fault with
    | none => exact h.withTotals _
    | some fault => exact hwarn fault (h.withTotals _)

/-- A disk that is analysed gets its place on the schedule, or fails. -/
theorem ranked_analyzeNext (h : n.RankedBut none) :
    Leads (analyzeNext id) n (fun _ k => k.RankedBut none) anyhow := by
  simp only [analyzeNext, analyze, scheduleChosen, getPlan, leads_bind, leads_get, leads_pure]
  apply (ranked_remove h).imp
  intro _ m hm
  rw [leads_reckon]
  apply (ranked_announcePick (hm.withTotals _) _).imp
  intro _ m hm
  split
  · simp only [failUnqueued, Planning.setPlan, leads_bind, leads_modify]
    apply (ranked_enqueue hm (by decide)).imp
    intro _ k hk
    exact hk.setPlan (Or.inr fun _ => ⟨rfl, rfl⟩)
  · simp only [Planning.setPlan, leads_bind, leads_modify, leads_get, leads_pure]
    apply (ranked_dumpMediaSize ((hm.besides id).setPlan (Or.inl rfl))).imp
    intro size m hm
    have hrest : ∀ (fullSize : Option Nat) {l : Night}, l.RankedBut (some id) →
        Leads (insertScheduled id) l (fun _ k => Leads (countDump id size) k (fun _ k =>
          Leads (noteDump id fullSize (m.plan id).fault) k (fun _ k => k.RankedBut none) anyhow)
            anyhow) anyhow := by
      intro fullSize l hl
      apply (ranked_insertScheduled hl).imp
      intro _ k hk
      exact leads_modify.mpr (ranked_noteDump (hk.withTotals _) _ _)
    split
    · simp only [leads_bind, leads_map]
      apply (ranked_fullMediaSize hm).imp
      intro fullSize l hl
      exact hrest _ hl
    · simp only [leads_bind, leads_pure]
      exact hrest _ hm

def analyzeFirst (ids : List Nat) : Planning Unit := do
  modify countNothing
  ids.forM analyzeNext

/-- The whole schedule is drawn up disk by disk from the estimated queue. -/
theorem analyzeAll_eq (n : Night) : analyzeAll n = (do
    analyzeFirst n.queues.estimated
    modify fun n => { n with totals :=
      { n.totals with threshold := n.totals.balanced * promoteThreshold } } : Planning Unit) n :=
  rfl

theorem ranked_analyzeFirst (ids : List Nat) (h : n.RankedBut none) :
    Leads (analyzeFirst ids) n (fun _ k => k.RankedBut none) anyhow := by
  simp only [analyzeFirst, leads_bind, leads_modify]
  refine leads_forM_keeps (I := RankedBut none) ?_ (h.withTotals _)
  intro id _ m hm
  exact ranked_analyzeNext hm

theorem ranked_analyzeAll (h : n.RankedBut none) :
    Leads analyzeAll n (fun _ k => k.RankedBut none) anyhow := by
  rw [leads_congr (analyzeAll_eq n)]
  simp only [leads_bind, leads_modify]
  exact (ranked_analyzeFirst _ h).imp fun _ _ hm => hm.withTotals _

/-- No fault ends the analysis of the first disks on the estimated queue. -/
theorem analyzeFirst_ok {ids : List Nat} (hs : g.Sound) (he : g.scheduled = [])
    (hids : ids <+: g.queues.estimated) : ∃ m, analyzeFirst ids g = .ok () m := by
  obtain ⟨rest, hrest⟩ := hids
  have hempty := empty_orderly hs he (t := (countNothing g).totals) rfl rfl
  have hall : Leads (g.queues.estimated.forM analyzeNext) _ _ never := leads_analyzeEach hempty
  rw [← hrest, List.forM_eq_forM, List.forM_append, leads_bind] at hall
  obtain ⟨_, m, hok, -⟩ := hall.exists_ok
  exact ⟨m, hok⟩

end Planning

/-! ## Fitting -/

namespace Delaying

theorem ranked_fallBack (h : n.RankedBut none) :
    Leads (fallBack id slot) n (fun _ k => k.RankedBut none) anyhow := by
  simp only [fallBack, Planning.setPlan, leads_bind, leads_modify]
  apply (ranked_dumpMediaSize ((h.besides id).setPlan (Or.inl rfl))).imp
  intro _ m hm
  exact ranked_resortScheduled (hm.withTotals _)

theorem ranked_drop (h : n.RankedBut none) :
    Leads (drop id reason) n (fun _ k => k.RankedBut none) anyhow := by
  simp only [drop, Planning.setPlan, leads_bind, leads_modify]
  apply (ranked_remove h).imp
  intro _ k hk
  exact hk.setPlan (Or.inr fun _ => ⟨rfl, rfl⟩)

theorem ranked_delay {delete : Bool} (h : s.night.RankedBut none) :
    Leads (delay id delete reason) s (fun _ t => t.night.RankedBut none) anyhow :=
  keeps_delay (ranked_dumpMediaSize h) (fun _ hm => hm.withTotals _) (fun _ => ranked_fallBack)
    ranked_drop

theorem ranked_undo {total : Nat} (h : n.RankedBut none) :
    Leads (undo image total) n (fun _ k => k.RankedBut none) anyhow := by
  have hcount : ∀ {m : Night}, m.RankedBut none → Leads (if image.level = 0 then
      modify (recountFull image.mediaSize) else pure () : Planning Unit) m
        (fun _ k => k.RankedBut none) anyhow := by
    intro m hm
    split
    · exact leads_modify.mpr (hm.withTotals _)
    · exact hm
  have hback : ((n.withTotals { n.totals with size := total }).setPlan image.record fun p =>
      { p with dump := some image.slot }).RankedBut (some image.record) :=
    ((h.besides image.record).withTotals _).setPlan (Or.inl rfl)
  simp only [undo, Planning.setPlan, leads_bind, leads_modify]
  split
  · rw [leads_bind]
    exact (ranked_insertScheduled hback).imp fun _ _ => hcount
  · rw [leads_bind]
    exact (ranked_resortScheduled hback).imp fun _ _ => hcount

theorem ranked_undoIfFits (h : n.RankedBut none) :
    Leads (undoIfFits image) n (fun _ k => k.RankedBut none) anyhow :=
  keeps_undoIfFits (ranked_dumpMediaSize h) (fun _ hm => hm.withTotals _) ranked_undo h

theorem ranked_settle (h : n.RankedBut none) :
    Leads (settle image) n (fun _ k => k.RankedBut none) anyhow := by
  simp only [settle, leads_bind, leads_get]
  apply (ranked_say h _).imp
  intro _ m hm
  split
  · exact ranked_enqueue hm (by decide)
  · exact hm

end Delaying

/-- Every change that fitting makes or undoes leaves the schedule in its order. -/
theorem Change.ranked (hc : Change s t) (h : s.night.RankedBut none) :
    t.night.RankedBut none := by
  cases hc with
  | delayed hp hf hact => exact (ranked_delay h).ok hact
  | undone hact => exact (ranked_undoIfFits h).ok hact
  | looked n log id slot => exact h.setPlan (Or.inr fun p => p.sameRank_fixMedia slot)
  | reckoned n log what => exact h.withTotals _

theorem Changes.ranked (hc : Changes s t) (h : s.night.RankedBut none) :
    t.night.RankedBut none := by
  induction hc with
  | refl => exact h
  | tail _ hstep ih => exact hstep.ranked ih

/-- Fitting leaves the schedule in its order, whether it fits or not. -/
theorem Fitted.ranked (h : Fitted n s f) (hn : n.RankedBut none) : f.RankedBut none := by
  have hs : s.night.RankedBut none := h.changes.ranked hn
  have hsettled : Leads (s.log.reverse.forM settle) s.night (fun _ f => f.RankedBut none) anyhow :=
    leads_forM_keeps (fun _ _ _ hm => ranked_settle hm) hs
  exact hsettled.ok h.settled

/-! ## Balancing -/

theorem Planning.ranked_promote {special : Bool} (h : n.RankedBut none) :
    Leads (promote id slot special) n (fun _ k => k.RankedBut none) anyhow := by
  simp only [promote, getPlan, Planning.setPlan, leads_bind, leads_modify, leads_get, leads_pure]
  apply (ranked_dumpMediaSize h).imp
  intro current m hm
  apply (ranked_mediaSize? hm).imp
  intro full m hm
  have hset := ((hm.besides id).withTotals (countPromoted (full.getD 0) current m).totals).setPlan
      (f := fun p => { p with degraded := p.dump, dump := some slot, nextFull := 0 }) (Or.inl rfl)
  apply (ranked_resortScheduled hset).imp
  intro _ k hk
  exact ranked_say hk _

/-- Every step of balancing leaves the schedule in its order. -/
theorem Rebalance.ranked (hc : Rebalance n k) (h : n.RankedBut none) : k.RankedBut none := by
  cases hc with
  | promoted hp hc hact => exact (ranked_promote h).ok hact
  | looked id slot => exact h.setPlan (Or.inr fun p => p.sameRank_fixMedia slot)
  | scored id score => exact h.setPlan (Or.inr fun _ => ⟨rfl, rfl⟩)
  | reckoned what => exact h.withTotals _

theorem Rebalances.ranked (hc : Rebalances n k) (h : n.RankedBut none) : k.RankedBut none := by
  induction hc with
  | refl => exact h
  | tail _ hstep ih => exact hstep.ranked ih

/-! ## The whole night -/

/-- **The order of the schedule.** Of two records on the schedule the one ahead has the higher
priority, or the same and a dump that is no smaller: after every disk that is analysed, after
every change that fitting makes or undoes, whether the schedule fits in the end or not, and
after every step of balancing. -/
theorem schedule_always_ranked (hs : g.Sound) (he : g.scheduled = []) :
    (∀ ids, ids <+: g.queues.estimated → ∃ m, analyzeFirst ids g = .ok () m ∧ m.Ranked) ∧
    ∃ a s f k, analyzeAll g = .ok () a ∧
      (∀ t, Changes ⟨a, []⟩ t → t.night.Ranked) ∧
      Changes ⟨a, []⟩ s ∧ Reported s.log s.night f ∧
      (fit a = .ok () f ∨ ∃ why, fit a = .error (.unfittable why) f) ∧ f.Ranked ∧
      (∀ m, Rebalances f m → m.Ranked) ∧
      balance f = .ok () k ∧ Rebalances f k := by
  have hg : g.RankedBut none := rankedBut_none.mpr ⟨hs, by rw [Ranked, he]; exact .nil⟩
  refine ⟨fun ids hids => ?_, ?_⟩
  · obtain ⟨m, hok⟩ := analyzeFirst_ok hs he hids
    exact ⟨m, hok, (rankedBut_none.mp ((ranked_analyzeFirst ids hg).ok hok)).2⟩
  · obtain ⟨_, a, hanalyzed, ha⟩ := (leads_analyzeAll hs he).exists_ok
    have hranked : a.RankedBut none := by
      obtain ⟨m, hok⟩ := analyzeFirst_ok hs he (List.prefix_refl _)
      have hm := (ranked_analyzeFirst _ hg).ok hok
      rw [analyzeAll_eq] at hanalyzed
      obtain ⟨_, l, hfirst, hlast⟩ := ok_of_bind hanalyzed
      cases hok.symm.trans hfirst
      cases hlast
      exact hm.withTotals _
    obtain ⟨s, f, hfitted, hfit⟩ := exists_fitted ha.orderly
    have hf := hfitted.ranked hranked
    obtain ⟨_, k, hbalance, hk⟩ := (leads_balance (hfitted.orderly ha.orderly)).exists_ok
    exact ⟨a, s, f, k, hanalyzed, fun t ht => (rankedBut_none.mp (ht.ranked hranked)).2,
      hfitted.changes, hfitted.reported, hfit, (rankedBut_none.mp hf).2,
      fun m hm => (rankedBut_none.mp (hm.ranked hf)).2, hbalance, hk⟩

/-- The bigger of two dumps is scheduled ahead of the other one, although its disk comes
later. -/
theorem schedule_always_ranked_of_two : ∃ g a, g.Sound ∧ g.scheduled = [] ∧
    g.queues.estimated = [0, 1] ∧ analyzeAll g = .ok () a ∧ a.scheduled = [1, 0] ∧
    (a.plan 0).dumpMediaSize = 100 ∧ (a.plan 1).dumpMediaSize = 300 ∧ a.Ranked := by
  obtain ⟨n, a, hbegin, h0, hp0, h1, hp1, he, hestimated, hrun, hscheduled, hsize0, hsize1⟩ :
      ∃ n a, Night.begin {} [Disk.plain "alpha" "/home" 10 default,
          Disk.plain "beta" "/srv" 10 default] default 0 = .ok n ∧
        0 < n.plans.length ∧ n.place 0 = none ∧
        1 < (withSize n 0 100).plans.length ∧ (withSize n 0 100).place 1 = none ∧
        (withSize (withSize n 0 100) 1 300).scheduled = [] ∧
        (withSize (withSize n 0 100) 1 300).queues.estimated = [0, 1] ∧
        analyzeAll (withSize (withSize n 0 100) 1 300) = .ok () a ∧ a.scheduled = [1, 0] ∧
        (a.plan 0).dumpMediaSize = 100 ∧ (a.plan 1).dumpMediaSize = 300 :=
    ⟨_, _, rfl, by decide, rfl, by decide, rfl, rfl, rfl, rfl, rfl, rfl, rfl⟩
  have hs0 : (withSize n 0 100).Sound := ((fresh_of_begin hbegin).sound.join h0 hp0).setPlan _
  have hs : (withSize (withSize n 0 100) 1 300).Sound := (hs0.join h1 hp1).setPlan _
  obtain ⟨-, b, -, -, -, hb, hranked, -⟩ := schedule_always_ranked hs he
  cases hrun.symm.trans hb
  exact ⟨_, a, hs, he, hestimated, hrun, hscheduled, hsize0, hsize1, hranked ⟨a, []⟩ .refl⟩

end NightlyBackup
