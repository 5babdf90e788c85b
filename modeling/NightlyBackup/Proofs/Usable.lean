import NightlyBackup.Proofs.HostActions
import NightlyBackup.Proofs.WholeNight

/-!
No usable size is wasted. The conversations change neither the levels that are asked for nor
anything else that the choice of a dump goes by, so a disk that comes out of them with a size is
scheduled, unless the size is at a level that was asked for and is not looked at.
-/

namespace NightlyBackup

open Night Planning

variable {disks : List Disk} {n m k : Night} {h : Nat} {act : Planning Unit}

/-- A later state of the night `n` in which the same is asked about every disk. -/
structure SameQuestions (n m : Night) : Prop where
  later : n.Later m
  question : ∀ id, (m.plan id).question = (n.plan id).question

theorem Confined.asks {α : Type} {act : Planning α} (hc : Confined n h act)
    (hm : SameQuestions n m) :
    Leads act m (fun _ k => SameQuestions n k) fun _ _ => True := by
  refine leads_anyhow fun _ k hact => ?_
  have hk := hc.leaves hm.later hact
  exact ⟨hk.later, fun id => (hk.question id).trans (hm.question id)⟩

namespace Planning

theorem sameQuestions_cancelAll (hn : n.Hosted) (hm : SameQuestions n m) :
    Leads cancelAll m (fun _ k => SameQuestions n k) fun _ _ => True := by
  simp only [cancelAll, leads_bind, leads_get]
  refine leads_forM_keeps (fun h _ k hk => ?_) hm
  simp only [leads_bind, leads_get]
  split
  · exact (confined_hostFailed hn _).asks hk
  · exact hk

theorem sameQuestions_act (hn : n.Hosted) (hm : SameQuestions n m) (turn : Turn) :
    Leads turn.act m (fun _ k => SameQuestions n k) fun _ _ => True := by
  cases turn with
  | ask h => exact (confined_request hn).asks hm
  | packet h p =>
    simp only [Turn.act, leads_bind, leads_pure]
    exact (confined_onReply hn p).asks hm
  | fault h f =>
    simp only [Turn.act, leads_bind, leads_pure]
    exact (confined_onTransportFault hn f).asks hm
  | callOff =>
    simp only [Turn.act, leads_bind, leads_pure]
    exact sameQuestions_cancelAll hn hm

theorem sameQuestions_finish (hm : SameQuestions n m) :
    Leads finish m (fun _ k => SameQuestions n k) fun _ _ => True := by
  simp only [finish, leads_bind, leads_get]
  refine (leads_forM_keeps (fun id _ k hk => (confined_strand rfl).asks hk) hm).imp fun _ k hk => ?_
  refine (leads_forM_keeps (fun id _ k hk => (confined_closePartial rfl).asks hk) hk).imp
    fun _ k hk => ?_
  exact leads_forM_keeps (fun id _ k hk => (confined_closeUnasked rfl).asks hk) hk

theorem sameQuestions_kept (hn : n.Hosted) :
    KeptByTurns fun m => Conversing [] n m ∧ SameQuestions n m where
  act hm turn :=
    ((leads_act hn hm.1 turn : Leads _ _ _ never).and (sameQuestions_act hn hm.2 turn)).mono
      (fun _ _ hk => hk) fun _ _ hf => hf.1
  sent hm sent := ⟨conversing_noteSent hm.1 sent,
    ⟨⟨(conversing_noteSent hm.1 sent).sound, (conversing_noteSent hm.1 sent).same⟩,
      hm.2.question⟩⟩

end Planning

/-- The ways to gather sizes: in rounds, from hosts that are called off or not, or turn by turn
in any order. -/
inductive Gathering : Planning Unit → Prop
  | rounds {σ : Type} (net : Network σ) (hosts : σ) (cancelled : Bool) :
    Gathering (gather net hosts cancelled)
  | turns (turns : List Turn) : Gathering (gatherTurns turns)

theorem Gathering.leads (hg : Gathering act) (hn : n.Hosted) (hc : Conversing [] n n) :
    Leads act n (fun _ k => Closing [] n k ∧ SameQuestions n k) never := by
  have hm : Conversing [] n n ∧ SameQuestions n n := ⟨hc, ⟨hc.sound, hc.same⟩, fun _ => rfl⟩
  have hfinish : ∀ {k}, Conversing [] n k ∧ SameQuestions n k →
      Leads finish k (fun _ l => Closing [] n l ∧ SameQuestions n l) never := fun hk =>
    ((leads_finish hk.1 : Leads _ _ _ never).and (sameQuestions_finish hk.2)).mono
      (fun _ _ hl => hl) fun _ _ hf => hf.1
  cases hg with
  | rounds net hosts cancelled =>
    exact leads_gather_finish (sameQuestions_kept hn) net hosts cancelled hm hfinish
  | turns turns => exact leads_gatherTurns_finish (sameQuestions_kept hn) hm turns hfinish

/-- Gathering comes to an end. Every disk that was to be asked about has then been asked what
preparation asks, and the disks with a size are ready to be scheduled. -/
theorem exists_gathered {s : Settings} {r : Rotation} {today : Int} {store : Store} {n₀ : Night}
    (hbegin : Night.begin s disks r today = .ok n₀) (hprepare : prepareAll store n₀ = .ok () n)
    (hgathering : Gathering act) :
    ∃ g, act n = .ok () g ∧ Sorted .estimated g ∧
      ∀ id ∈ n.queues.start, (g.plan id).question = (n.plan id).question ∧
        (g.plan id).question.Asked := by
  obtain ⟨hsetUp, hn, hc⟩ := conversing_of_prepared hbegin hprepare
  obtain ⟨_, g, hg, hclosing, hsame⟩ := (hgathering.leads hn hc).exists_ok
  refine ⟨g, hg, .gathered hsetUp hclosing, fun id hstart => ⟨hsame.question id, ?_⟩⟩
  have hplace := hsetUp.sound.place_iff.mpr hstart
  rw [hsame.question]
  cases hsetUp.prepared (hsetUp.sound.lt_of_place hplace) with
  | toAsk place kept asked => exact asked
  | failed place => cases hplace.symm.trans place
  | leftOut place => cases hplace.symm.trans place

/-- The disks with a size are analysed, each by its own plan. -/
theorem exists_analysed {g : Night} (hg : Sorted .estimated g) :
    ∃ a, analyzeAll g = .ok () a ∧ a.Sound ∧
      ∀ id ∈ g.queues.estimated, Analysis (g.plan id) (a.plan id) (a.place id) := by
  obtain ⟨_, a, ha, hdrawn⟩ := (leads_analyzeAll hg.sound
    (hg.empty .scheduled (by decide) (by decide))).exists_ok
  exact ⟨a, ha, hdrawn.orderly.sound, fun id hid => hdrawn.each (hg.sound.place_iff.mpr hid)⟩

/-- **Usable sizes are scheduled.** However sizes are gathered, a disk that was asked about and
has a size in the end is scheduled, unless the size is at an overlooked level; then it fails for
want of an estimate. -/
theorem usable_sizes_scheduled {s : Settings} {r : Rotation} {today : Int} {store : Store}
    {n₀ : Night} (hbegin : Night.begin s disks r today = .ok n₀)
    (hprepare : prepareAll store n₀ = .ok () n) (hgathering : Gathering act) :
    ∃ g a, act n = .ok () g ∧ analyzeAll g = .ok () a ∧
      ∀ id, id ∈ n.queues.start → id ∈ g.queues.estimated → (g.plan id).hasPositiveSize →
        (¬(n.plan id).question.Overlooked →
          id ∈ a.queues.scheduled ∧ id ∉ a.queues.failed) ∧
        ((n.plan id).question.Overlooked →
          id ∈ a.queues.failed ∧ (a.plan id).fault = some "no estimate") := by
  obtain ⟨g, hg, hsorted, hasked⟩ := exists_gathered hbegin hprepare hgathering
  obtain ⟨a, ha, hs, hanalysed⟩ := exists_analysed hsorted
  refine ⟨g, a, hg, ha, fun id hstart hestimated hsize => ?_⟩
  obtain ⟨hsame, hasked⟩ := hasked id hstart
  rw [← hsame]
  rcases hanalysed id hestimated with ⟨hdump, hscheduled, -⟩ | ⟨hdump, hfailed, hfault⟩
  · refine ⟨fun _ => ⟨hs.place_iff.mp hscheduled, fun hf => ?_⟩, fun ho => ?_⟩
    · have hfailed : a.place id = some .failed := hs.place_iff.mpr hf
      cases hfailed.symm.trans hscheduled
    · rw [DiskPlan.choose_eq_none ho] at hdump
      cases hdump
  · refine ⟨fun ho => ?_, fun _ => ⟨hs.place_iff.mp hfailed, hfault⟩⟩
    have hchosen := DiskPlan.choose_isSome hasked hsize ho
    rw [hdump] at hchosen
    cases hchosen

def expectedDisk : Disk := { Disk.plain "alpha" "/home" 10 default with sizeSources := [.server] }

/-- A new disk whose full dump is expected to have some size is scheduled. -/
theorem usable_size_scheduled_of_new : ∃ n₀ n g a,
    Night.begin {} [expectedDisk] default 0 = .ok n₀ ∧ prepareAll {} n₀ = .ok () n ∧
    gatherTurns [.ask 0] n = .ok () g ∧ analyzeAll g = .ok () a ∧
    0 ∈ n.queues.start ∧ 0 ∈ g.queues.estimated ∧ (g.plan 0).hasPositiveSize ∧
    0 ∈ a.queues.scheduled ∧ 0 ∉ a.queues.failed := by
  obtain ⟨n₀, n, g, hbegin, hprepare, hg, hstart, hestimated, hsize, hlevels⟩ : ∃ n₀ n g,
      Night.begin {} [expectedDisk] default 0 = .ok n₀ ∧ prepareAll {} n₀ = .ok () n ∧
        gatherTurns [.ask 0] n = .ok () g ∧ n.queues.start = [0] ∧ g.queues.estimated = [0] ∧
        (g.plan 0).hasPositiveSize = true ∧ (n.plan 0).question.levels = [0] :=
    ⟨_, _, _, rfl, rfl, rfl, rfl, rfl, rfl, rfl⟩
  obtain ⟨g', a, hg', ha, hall⟩ := usable_sizes_scheduled hbegin hprepare (.turns [.ask 0])
  cases hg.symm.trans hg'
  have hstart : 0 ∈ n.queues.start := by simp [hstart]
  have hestimated : 0 ∈ g.queues.estimated := by simp [hestimated]
  have hlooked : ¬(n.plan 0).question.Overlooked := fun ho => by
    have hlevels' := ho.1
    simp [hlevels] at hlevels'
  exact ⟨n₀, n, g, a, hbegin, hprepare, hg, ha, hstart, hestimated, hsize,
    (hall 0 hstart hestimated hsize).1 hlooked⟩

/-- The last dump of the disk was at level 2, and tonight level 1 is to be made. -/
def level1Store : Store :=
  { disks := [{ host := "alpha", disk := "/home", command := 8, lastLevel := some 2 }] }

/-- A dump at level 1 that was directed, and whose size is known, is not made. -/
theorem directed_level1_not_scheduled : ∃ n₀ n g a,
    Night.begin {} [expectedDisk] default 0 = .ok n₀ ∧ prepareAll level1Store n₀ = .ok () n ∧
    gatherTurns [.ask 0] n = .ok () g ∧ analyzeAll g = .ok () a ∧
    0 ∈ n.queues.start ∧ 0 ∈ g.queues.estimated ∧ (g.plan 0).hasPositiveSize ∧
    0 ∉ a.queues.scheduled ∧ (a.plan 0).fault = some "no estimate" := by
  have hrun : (match Night.begin {} [expectedDisk] default 0 with
      | .error _ => false
      | .ok n₀ => match prepareAll level1Store n₀ with
        | .error _ _ => false
        | .ok _ n => match gatherTurns [.ask 0] n with
          | .error _ _ => false
          | .ok _ g => match analyzeAll g with
            | .error _ _ => false
            | .ok _ a => n.queues.start = [0] && g.queues.estimated = [0] &&
              (g.plan 0).hasPositiveSize && a.queues.scheduled = [] &&
              (a.plan 0).fault = some "no estimate") = true := by decide +kernel
  split at hrun
  · cases hrun
  · rename_i n₀ hbegin
    split at hrun
    · cases hrun
    · rename_i n hprepare
      split at hrun
      · cases hrun
      · rename_i g hg
        split at hrun
        · cases hrun
        · rename_i a ha
          simp only [Bool.and_eq_true, decide_eq_true_eq] at hrun
          obtain ⟨⟨⟨⟨hstart, hestimated⟩, hsize⟩, hscheduled⟩, hfault⟩ := hrun
          exact ⟨n₀, n, g, a, hbegin, hprepare, hg, ha, by simp [hstart], by simp [hestimated],
            hsize, by simp [hscheduled], hfault⟩

end NightlyBackup
