import NightlyBackup.Proofs.HostActions

/-!
What is done about a disk after a packet. A disk that awaits the packet is moved to the tail of
another queue: to the partial queue if more is to follow, and to the estimated or the failed queue
otherwise. Any other disk is left alone.
-/

namespace NightlyBackup

open Night Planning

variable {n m k : Night} {h id : Nat} {source target : QueueName} {kind : PacketKind}

inductive Expects (m : Night) (id : Nat) : QueueName → Prop
  | waiting (progress : (m.plan id).progress = .active) (place : m.place id = some .waiting) :
    Expects m id .waiting
  | answering (progress : (m.plan id).progress = .partlyDone)
    (place : m.place id = some .partialEstimate) : Expects m id .partialEstimate

def Quiet (m : Night) (id : Nat) : Prop :=
  (m.plan id).progress = .ready ∨ (m.plan id).progress = .done

theorem Expects.place (he : Expects m id source) : m.place id = some source := by
  cases he with
  | waiting progress place => exact place
  | answering progress place => exact place

/-- Only the progress of the exchange and the queue of the disk count. -/
theorem Expects.congr (he : Expects m id source)
    (hplan : (k.plan id).progress = (m.plan id).progress) (hplace : k.place id = m.place id) :
    Expects k id source := by
  cases he with
  | waiting progress place => exact .waiting (hplan.trans progress) (hplace.trans place)
  | answering progress place => exact .answering (hplan.trans progress) (hplace.trans place)

/-- A disk that awaits a packet stands where one is expected for it. -/
theorem Conversing.expects (hc : Conversing [] n m) (ha : Awaits m id) :
    ∃ source, Expects m id source := by
  rcases hc.standing id with ⟨-, hin⟩ | haside
  · cases hin with
    | ready progress place => simp [Awaits, place] at ha
    | named progress place mem => cases mem
    | waiting progress place => exact ⟨_, .waiting progress place⟩
    | answering progress place => exact ⟨_, .answering progress place⟩
    | estimated progress place => simp [Awaits, place] at ha
    | failed progress place fault => simp [Awaits, place] at ha
  · rcases haside.why with e | ⟨e, -⟩ <;> simp [Awaits, haside.place, e] at ha

/-- A disk either stands where an answer is expected for it, or nothing is to be done about it. -/
theorem Conversing.expects_or_quiet (hc : Conversing [] n m) (id : Nat) :
    (∃ source, Expects m id source) ∨ Quiet m id := by
  rcases hc.standing id with ⟨-, hin⟩ | haside
  · cases hin with
    | ready progress place => exact Or.inr (Or.inl progress)
    | named progress place mem => cases mem
    | waiting progress place => exact Or.inl ⟨_, .waiting progress place⟩
    | answering progress place => exact Or.inl ⟨_, .answering progress place⟩
    | estimated progress place => exact Or.inr (Or.inr progress)
    | failed progress place fault => exact Or.inr (Or.inr progress)
  · exact Or.inr (Or.inl haside.progress)

namespace Night

def movedOn (m : Night) (id : Nat) (source target : QueueName) (p : DiskPlan) : Night :=
  (m.setPlan id fun _ => p).withQueues ((m.queues.leave source id).join target id)

variable {p : DiskPlan}

theorem Sound.movedOn (hs : m.Sound) (hp : m.place id = some source) :
    (m.movedOn id source target p).Sound :=
  (hs.setPlan _).move hp

theorem place_movedOn (hs : m.Sound) (hp : m.place id = some source) (j : Nat) :
    (m.movedOn id source target p).place j = if j = id then some target else m.place j :=
  hs.place_move hp j

theorem plan_movedOn_self (hs : m.Sound) (hp : m.place id = some source) :
    (m.movedOn id source target p).plan id = p :=
  plan_setPlan_self (hs.lt_of_place hp)

theorem plan_movedOn_of_ne {j : Nat} (hj : j ≠ id) :
    (m.movedOn id source target p).plan j = m.plan j :=
  plan_setPlan_of_ne hj

/-- A record that is moved is taken from among the others, wherever it was, and put at the tail. -/
theorem members_movedOn (hs : m.Sound) (hp : m.place id = some source) (name : QueueName) :
    (m.movedOn id source target p).queues.members name =
      (m.queues.members name).filter (· ≠ id) ++ if name = target then [id] else [] := by
  have hfree : (m.withQueues (m.queues.leave source id)).place id = none := by
    rw [hs.place_leave hp, if_pos rfl]
  have hjoin : ((m.queues.leave source id).join target id).members name = _ :=
    (hs.leave hp).members_join (hs.lt_of_place hp) hfree name
  have hleave : (m.queues.leave source id).members name =
      (m.queues.members name).filter (· ≠ id) := by
    rw [hs.members_leave hp]
    split
    · rw [(hs.valid.nodup name).erase_eq_filter]
      exact List.filter_congr fun j _ => by simp [bne, beq_eq_decide]
    · rename_i e
      refine (List.filter_eq_self.mpr fun j hj => ?_).symm
      have hne : j ≠ id := by
        rintro rfl
        exact e (Option.some.inj ((hs.place_iff.mpr hj).symm.trans hp))
      simpa using hne
  rw [queues_withQueues, hleave] at hjoin
  rw [movedOn, queues_withQueues, hjoin]
  split <;> simp

end Night

def DiskPlan.partlyTold (p : DiskPlan) : DiskPlan := { p with progress := .partlyDone }

def DiskPlan.resolved (p : DiskPlan) (hostName : String) : DiskPlan :=
  { p with
    progress := .done
    fault := if p.hasPositiveSize then p.fault else some (noSizeReason hostName p) }

def DiskPlan.outcome (p : DiskPlan) : QueueName :=
  if p.hasPositiveSize then .estimated else .failed

def Night.resolve (m : Night) (h id : Nat) (source : QueueName) : Night :=
  (m.movedOn id source (m.plan id).outcome ((m.plan id).resolved (m.host h).name)).setHost h
    fun host => { host with state := .done }

theorem Night.Sound.resolve (hs : m.Sound) (he : Expects m id source) :
    (m.resolve h id source).Sound :=
  (hs.movedOn he.place).setHost h _

theorem resolve_self (hs : m.Sound) (he : Expects m id source) :
    (m.resolve h id source).place id = some (m.plan id).outcome ∧
      (m.resolve h id source).plan id = (m.plan id).resolved (m.host h).name := by
  rw [Night.resolve, place_setHost, plan_setHost, place_movedOn hs he.place, if_pos rfl,
    plan_movedOn_self hs he.place]
  exact ⟨rfl, rfl⟩

theorem resolve_of_ne (hs : m.Sound) (he : Expects m id source) {j : Nat} (hj : j ≠ id) :
    (m.resolve h id source).place j = m.place j ∧
      (m.resolve h id source).plan j = m.plan j := by
  rw [Night.resolve, place_setHost, plan_setHost, place_movedOn hs he.place, if_neg hj,
    plan_movedOn_of_ne hj]
  exact ⟨rfl, rfl⟩

/-- A host that is done keeps its name. -/
theorem name_setHost_done (m : Night) (h : Nat) :
    ((m.setHost h fun host => { host with state := .done }).host h).name = (m.host h).name :=
  host_setHost_cases (P := fun x => x.name = (m.host h).name) rfl rfl

theorem name_resolve : ((m.resolve h id source).host h).name = (m.host h).name :=
  name_setHost_done (m.movedOn id source _ _) h

theorem quiet_resolve (hs : m.Sound) (he : Expects m id source) {j : Nat}
    (hq : j ≠ id → Quiet m j) : Quiet (m.resolve h id source) j := by
  by_cases hj : j = id
  · subst hj
    rw [Quiet, (resolve_self hs he).2]
    exact Or.inr rfl
  · rw [Quiet, (resolve_of_ne hs he hj).2]
    exact hq hj

namespace Planning

theorem settleDisk_eq (h id : Nat) (kind : PacketKind) (m : Night) :
    settleDisk h kind id m = (match (m.plan id).progress with
      | .active => settleFrom h kind .waiting id
      | .partlyDone => settleFrom h kind .partialEstimate id
      | .ready | .done => pure ()) m := rfl

theorem settleDisk_of_quiet (hq : Quiet m id) : settleDisk h kind id m = .ok () m := by
  rw [settleDisk_eq]
  rcases hq with e | e <;> rw [e] <;> rfl

theorem settleDisk_of_expects (he : Expects m id source) :
    settleDisk h kind id m = settleFrom h kind source id m := by
  rw [settleDisk_eq]
  cases he with
  | waiting progress place => rw [progress]
  | answering progress place => rw [progress]

/-- A record that was taken off its queue may join another one, whatever else was changed. -/
theorem enqueue_left (hs : m.Sound) (hp : m.place id = some source)
    (hq : k.queues = m.queues.leave source id) : enqueue target id k =
      .ok () (k.withQueues ((m.queues.leave source id).join target id)) := by
  have hm := hs.place_iff.mp hp
  have hjoined : k.queues.enqueue target id =
      .ok ((m.queues.leave source id).join target id) := by
    rw [hq]
    exact Queues.enqueue_ok (by simpa using hs.valid.known hm) (hs.valid.queueOf_leave_self hm)
  exact onQueues_ok hjoined

/-- A part of a reply moves a disk that waits for it to the tail of the partial queue. -/
theorem settleDisk_part (hs : m.Sound) (he : Expects m id source) :
    settleDisk h .prep id m =
      .ok () (m.movedOn id source .partialEstimate (m.plan id).partlyTold) := by
  have hp := he.place
  have hrun : Leads (settleFrom h .prep source id) m
      (fun _ k => k = m.movedOn id source .partialEstimate (m.plan id).partlyTold) never := by
    simp only [settleFrom, getPlan, setPlan, leads_bind, leads_get, leads_pure, leads_modify,
      leads_iff_of_ok (remove_ok hs hp), if_true]
    refine leads_of_ok (enqueue_left hs hp rfl) ?_
    have htold : m.setPlan id (fun p => { p with progress := .partlyDone }) =
        m.setPlan id fun _ => (m.plan id).partlyTold := setPlan_congr rfl
    rw [movedOn, ← htold]
    rfl
  obtain ⟨_, _, hok, rfl⟩ := hrun.exists_ok
  rw [settleDisk_of_expects he, hok]

/-- A final packet resolves a disk that waits for it. -/
theorem settleDisk_final (hs : m.Sound) (he : Expects m id source) :
    settleDisk h .rep id m = .ok () (m.resolve h id source) := by
  have hp := he.place
  have hrun : Leads (settleFrom h .rep source id) m (fun _ k => k = m.resolve h id source)
      never := by
    simp only [settleFrom, getPlan, setPlan, setHost, leads_bind, leads_get, leads_pure,
      leads_modify, leads_iff_of_ok (remove_ok hs hp), reduceCtorEq, if_false]
    split
    · rename_i hsize
      refine leads_of_ok (enqueue_left hs hp rfl) ?_
      have hresolved : m.setPlan id (fun p => { p with progress := .done }) =
          m.setPlan id fun _ => (m.plan id).resolved (m.host h).name :=
        setPlan_congr (by simp only [DiskPlan.resolved, hsize, if_true])
      rw [resolve, DiskPlan.outcome, if_pos hsize, movedOn, ← hresolved]
      rfl
    · rename_i hsize
      simp only [leads_bind, leads_get, leads_modify]
      refine leads_of_ok (enqueue_left hs hp rfl) ?_
      have hresolved : (m.setPlan id fun p => { p with progress := .done }).setPlan id
            (fun p => { p with fault := some (noSizeReason (m.host h).name p) }) =
          m.setPlan id fun _ => (m.plan id).resolved (m.host h).name := by
        rw [setPlan_setPlan]
        refine setPlan_congr ?_
        simp only [DiskPlan.resolved, hsize, Function.comp_apply]
        rfl
      rw [resolve, DiskPlan.outcome, if_neg hsize, movedOn, ← hresolved, ← name_setHost_done m h]
      rfl
  obtain ⟨_, _, hok, rfl⟩ := hrun.exists_ok
  rw [settleDisk_of_expects he, hok]

/-- After a final packet every disk that waited for it is resolved, by what its plan says then. -/
theorem leads_settle_final {disks : List Nat} (hd : disks.Nodup) (hs : m.Sound)
    (hq : ∀ id ∈ disks, (∃ source, Expects m id source) ∨ Quiet m id) :
    Leads (disks.forM (settleDisk h .rep)) m (fun _ k => ∀ id ∈ disks, ∀ source,
      Expects m id source → k.place id = some (m.plan id).outcome ∧
        k.plan id = (m.plan id).resolved (m.host h).name) never := by
  refine (leads_forM_each (I := fun k => k.Sound ∧ (k.host h).name = (m.host h).name)
    (P := fun id k => k.place id = m.place id ∧ k.plan id = m.plan id)
    (Q := fun id k => ∀ source, Expects m id source → k.place id = some (m.plan id).outcome ∧
      k.plan id = (m.plan id).resolved (m.host h).name)
    hd ?_ ⟨hs, rfl⟩ fun _ _ => ⟨rfl, rfl⟩).imp fun _ _ hk => hk.2
  rintro id hid k ⟨hk, hname⟩ ⟨hplace, hplan⟩
  rcases hq id hid with ⟨source, he⟩ | hquiet
  · have he' : Expects k id source := he.congr (by rw [hplan]) hplace
    refine leads_of_ok (settleDisk_final hk he') ⟨⟨hk.resolve he', name_resolve.trans hname⟩,
      fun _ _ => ?_, fun j _ hj => ?_⟩
    · rw [← hname, ← hplan]
      exact resolve_self hk he'
    · obtain ⟨hplace, hplan⟩ := resolve_of_ne (h := h) hk he' hj
      rw [hplace, hplan]
      exact ⟨fun hp => hp, fun hq => hq⟩
  · have hquiet' : Quiet k id := by rwa [Quiet, hplan]
    refine leads_of_ok (settleDisk_of_quiet hquiet') ⟨⟨hk, hname⟩, fun source he => ?_,
      fun _ _ _ => ⟨fun hp => hp, fun hq => hq⟩⟩
    rcases hquiet with e | e <;> cases he with
    | waiting progress place => cases e.symm.trans progress
    | answering progress place => cases e.symm.trans progress

end Planning

end NightlyBackup
