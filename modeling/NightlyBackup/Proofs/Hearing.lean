import NightlyBackup.Proofs.Replies

/-!
A packet is heard before anything is done about it: its lines are taken in order, up to one with
which the host fails. After that the host fails, or its disks are moved on.
-/

namespace NightlyBackup

open Night

namespace Planning

variable {n m : Night} {h id : Nat} {fail : Fault → Night → Prop}

def hear (h : Nat) (packet : Packet) : Planning (Option String) := do
  setHost h fun host => { host with state := .ready }
  match packetLines ((← get).host h).name packet with
  | .error words => pure (some words)
  | .ok lines => takeLines h packet.kind lines

def settleHost (h : Nat) (kind : PacketKind) : Planning Unit := do
  setHost h fun host => { host with features := some (host.features.getD {}) }
  ((← get).host h).disks.forM (settleDisk h kind)

/-- What is done about a packet depends on it only through what was heard. -/
theorem onReply_eq (h : Nat) (packet : Packet) : onReply h packet = (do
    match ← hear h packet with
    | some words => hostFailed h words
    | none => settleHost h packet.kind) := by
  simp only [onReply, hear, bind_assoc]
  refine bind_congr fun _ => bind_congr fun m => ?_
  cases packetLines (m.host h).name packet with
  | error words => rfl
  | ok lines => rfl

theorem leads_hear (hc : Conversing [] n m) (packet : Packet) :
    Leads (hear h packet) m (fun _ k => Conversing [] n k) fail := by
  simp only [hear, setHost, leads_bind, leads_modify, leads_get]
  split
  · exact hc.setState h .ready
  · exact (leads_takeLines (hc.setState h .ready) _ _).imp fun _ _ hk => hk.1

/-- Moving on a disk leaves the features of its host alone, even if it ends in a fault. -/
theorem features_settleDisk {known : Option FeatureSet} (kind : PacketKind)
    (hm : (m.host h).features = known) :
    Leads (settleDisk h kind id) m (fun _ k => (k.host h).features = known)
      (fun _ k => (k.host h).features = known) := by
  have hfrom : ∀ source, Leads (settleFrom h kind source id) m
      (fun _ k => (k.host h).features = known) (fun _ k => (k.host h).features = known) := by
    intro source
    simp only [settleFrom, getPlan, remove, enqueue, leads_bind, leads_get, leads_pure]
    refine leads_onQueues_or (fun q => ?_) fun _ => hm
    split
    · simp only [setPlan, leads_bind, leads_modify]
      exact leads_onQueues_or (fun _ => hm) fun _ => hm
    · simp only [setPlan, setHost, leads_bind, leads_modify]
      have hstate : (((m.withQueues q).setHost h fun host =>
          { host with state := .done }).host h).features = known :=
        host_setHost_cases (P := fun x => x.features = known) hm hm
      split
      · exact leads_onQueues_or (fun _ => hstate) fun _ => hstate
      · simp only [leads_bind, leads_get, leads_modify]
        exact leads_onQueues_or (fun _ => hstate) fun _ => hstate
  simp only [settleDisk, getPlan, leads_bind, leads_get, leads_pure]
  cases (m.plan id).progress with
  | active => exact hfrom _
  | partlyDone => exact hfrom _
  | ready => exact hm
  | done => exact hm

theorem features_settleHost (kind : PacketKind) (hh : h < m.hosts.length) :
    Leads (settleHost h kind) m (fun _ k => (k.host h).features ≠ none) anyhow := by
  simp only [settleHost, setHost, leads_bind, leads_modify, leads_get]
  refine (leads_forM_keeps (I := fun k => (k.host h).features =
    some ((m.host h).features.getD {})) (fun id _ k hk => features_settleDisk kind hk) ?_).mono ?_
      fun _ _ _ => trivial
  · rw [host_setHost_self hh]
  · rintro _ k hk e
    cases hk.symm.trans e

/-- After a packet either all disks of the host are resolved, or the host did not fail and its
features are known. -/
theorem heard_onReply (hn : n.Hosted) (hc : Conversing [] n m) (packet : Packet)
    (hh : h < m.hosts.length) : Leads (onReply h packet) m (fun _ k =>
      Idle k h ∨ ((∃ l, hear h packet m = .ok none l) ∧ (k.host h).features ≠ none)) anyhow := by
  rw [onReply_eq, leads_bind]
  refine ((leads_hear hc packet).run).imp ?_
  rintro words l ⟨hheard, hl⟩
  cases words with
  | some words => exact (leads_hostFailed hn hl words).imp fun _ _ hk => Or.inl hk.2.2.1
  | none =>
    refine (features_settleHost packet.kind ?_).imp fun _ _ hk => Or.inr ⟨⟨l, hheard⟩, hk⟩
    rw [hl.same.hosts, ← hc.same.hosts]
    exact hh

end Planning

end NightlyBackup
