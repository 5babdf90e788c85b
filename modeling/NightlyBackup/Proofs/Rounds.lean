import NightlyBackup.Exchange.Gathering
import NightlyBackup.Proofs.Turns

/-!
Gathering sizes in rounds. Whatever a network of hosts brings, and however turns follow one
another, every record stays in step, and at the end every record that was to be asked about is
on the estimated or the failed queue.
-/

namespace NightlyBackup.Planning

variable {σ : Type} {n m : Night} {h : Nat} {fail : Fault → Night → Prop}

theorem leads_onTransportFault (hn : n.Hosted) (hc : Conversing [] n m) (f : TransportFault) :
    Leads (onTransportFault h f) m (fun _ k => Conversing [] n k) fail := by
  simp only [onTransportFault, leads_bind, leads_get]
  exact (leads_hostFailed hn hc _).imp fun _ _ hk => hk.1

theorem leads_act (hn : n.Hosted) (hc : Conversing [] n m) (turn : Turn) :
    Leads turn.act m (fun _ k => Conversing [] n k) fail := by
  cases turn with
  | ask h => exact (leads_request hn hc).imp fun _ _ hk => hk.1
  | packet h p =>
    simp only [Turn.act, leads_bind, leads_pure]
    exact (leads_onReply hn hc p).imp fun _ _ hk => hk.1
  | fault h f =>
    simp only [Turn.act, leads_bind, leads_pure]
    exact leads_onTransportFault hn hc f
  | callOff =>
    simp only [Turn.act, leads_bind, leads_pure]
    exact (leads_cancelAll hn hc).imp fun _ _ hk => hk.1.1

/-! ## What every turn keeps -/

/-- No turn ends in a fault, and what holds of a night still holds after any turn, whatever is
sent. -/
structure KeptByTurns (I : Night → Prop) : Prop where
  act : ∀ {m}, I m → ∀ turn : Turn, Leads turn.act m (fun _ k => I k) never
  sent : ∀ {m}, I m → ∀ sent, I { m with sent := sent }

theorem conversing_noteSent (hc : Conversing [] n m) (sent : List (String × String)) :
    Conversing [] n { m with sent := sent } :=
  ⟨⟨hc.sound.valid, hc.sound.registered⟩, ⟨hc.same.length, hc.same.owner, hc.same.diskName,
    hc.same.hosts, hc.same.hostName, hc.same.disks⟩, hc.skipped, hc.standing⟩

theorem conversing_kept (hn : n.Hosted) : KeptByTurns (Conversing [] n) :=
  ⟨fun hc turn => leads_act hn hc turn, conversing_noteSent⟩

section
variable {I : Night → Prop} (hI : KeptByTurns I)

include hI

theorem KeptByTurns.request (hm : I m) : Leads (request h) m (fun _ k => I k) never :=
  hI.act hm (.ask h)

theorem KeptByTurns.onReply (hm : I m) (p : Packet) :
    Leads (onReply h p) m (fun _ k => I k) never := by
  simpa only [Turn.act, leads_bind, leads_pure] using hI.act hm (.packet h p)

theorem KeptByTurns.onTransportFault (hm : I m) (f : TransportFault) :
    Leads (onTransportFault h f) m (fun _ k => I k) never := by
  simpa only [Turn.act, leads_bind, leads_pure] using hI.act hm (.fault h f)

theorem KeptByTurns.cancelAll (hm : I m) : Leads cancelAll m (fun _ k => I k) never := by
  simpa only [Turn.act, leads_bind, leads_pure] using hI.act hm .callOff

theorem leads_takeDelivery (hm : I m) (d : Delivery) :
    Leads (takeDelivery h d) m (fun _ k => I k) never := by
  cases d with
  | packet p =>
    simp only [takeDelivery, leads_bind]
    refine (hI.onReply hm p).imp fun _ k hk => ?_
    split
    · exact hI.request hk
    · exact hk
  | fault f =>
    simp only [takeDelivery, leads_bind, leads_pure]
    exact hI.onTransportFault hm f
  | silent => exact hm
  | cancel => exact hm

theorem leads_takeDeliveries (hm : I m) (deliveries : List (Nat × Delivery)) :
    Leads (takeDeliveries deliveries) m (fun _ k => I k) never := by
  induction deliveries generalizing m with
  | nil => exact hm
  | cons first rest ih =>
    obtain ⟨h, d⟩ := first
    simp only [takeDeliveries, leads_bind, leads_pure]
    exact (leads_takeDelivery hI hm d).imp fun _ k hk => ih hk

theorem leads_exchange (net : Network σ) (rounds : Nat) {s : σ} {requests : List HostRequest}
    (hm : I m) : Leads (exchange net rounds s requests) m (fun _ k => I k) never := by
  induction rounds generalizing m s requests with
  | zero => exact hm
  | succ rounds ih =>
    cases requests with
    | nil => exact hm
    | cons request requests =>
      simp only [exchange, noteSent, leads_bind, leads_modify, leads_pure]
      exact (leads_takeDeliveries hI (hI.sent hm _) _).imp fun _ k hk => ih hk

theorem leads_firstRequests (hm : I m) :
    Leads firstRequests m (fun _ k => I k) never := by
  simp only [firstRequests, leads_bind, leads_get, leads_pure]
  refine (leads_mapM_each (I := I) (P := fun _ _ => True) (Q := fun _ _ _ => True)
    List.nodup_range ?_ hm fun _ _ => trivial).imp fun _ _ hk => hk.1
  intro h _ k hk _
  refine (hI.request hk).imp fun _ l hl => ?_
  exact ⟨hl, trivial, fun _ _ _ => ⟨fun _ => trivial, fun _ _ => trivial⟩⟩

theorem leads_endSilences (hm : I m) (silences : List Silence) :
    Leads (endSilences silences) m (fun _ k => I k) never := by
  simp only [endSilences]
  split
  · exact hI.cancelAll hm
  · exact leads_forM_keeps (fun silence _ k hk => hI.onTransportFault hk .timeout) hm

/-- What every turn keeps holds when gathering comes to the last disks. -/
theorem leads_gather_finish {post : Unit → Night → Prop} (net : Network σ) (s : σ)
    (cancelled : Bool) (hm : I m) (hfinish : ∀ {k}, I k → Leads finish k post never) :
    Leads (gather net s cancelled) m post never := by
  simp only [gather, leads_bind]
  refine (leads_firstRequests hI hm).imp fun requests k hk => ?_
  split
  · split
    · rw [leads_bind]
      exact (hI.cancelAll hk).imp fun _ l hl => hfinish hl
    · exact hfinish hk
  · simp only [leads_bind, leads_get]
    refine (leads_exchange hI net _ hk).imp fun silences l hl => ?_
    exact (leads_endSilences hI hl silences).imp fun _ l hl => hfinish hl
end

/-- **Gathering.** No behaviour of the hosts ends gathering in a fault, and in the end every
record that was to be asked about is final. -/
theorem leads_gather (hn : n.Hosted) (hc : Conversing [] n m) (net : Network σ) (s : σ)
    (cancelled : Bool) : Leads (gather net s cancelled) m (fun _ k => Closing [] n k) fail :=
  (leads_gather_finish (conversing_kept hn) net s cancelled hc leads_finish).weaken
    fun _ _ hk => hk

/-! ## Turns in any order -/

def takeTurns (turns : List Turn) : Planning Unit :=
  turns.forM fun turn => do
    let _ ← turn.act

theorem leads_takeTurns {I : Night → Prop} (hI : KeptByTurns I) (hm : I m) (turns : List Turn) :
    Leads (takeTurns turns) m (fun _ k => I k) never := by
  refine leads_forM_keeps (fun turn _ k hk => ?_) hm
  simp only [leads_bind, leads_pure]
  exact hI.act hk turn

/-- Gather sizes turn by turn, in any order of turns. -/
def gatherTurns (turns : List Turn) : Planning Unit := do
  turns.forM fun turn => do
    let _ ← turn.act
  finish

theorem leads_gatherTurns_finish {I : Night → Prop} {post : Unit → Night → Prop}
    (hI : KeptByTurns I) (hm : I m) (turns : List Turn)
    (hfinish : ∀ {k}, I k → Leads finish k post never) :
    Leads (gatherTurns turns) m post never :=
  leads_bind.mpr ((leads_takeTurns hI hm turns).imp fun _ _ hk => hfinish hk)

end NightlyBackup.Planning
