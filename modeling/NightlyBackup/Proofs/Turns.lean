import NightlyBackup.Proofs.Closing
import NightlyBackup.Proofs.Preparing
import NightlyBackup.Proofs.Replies

/-!
Gathering sizes turn by turn. Requests, packets, faults and the calling off of the run come in
any order across the hosts; all that is asked of the order is that a request is only made to a
host that is due one: at the beginning, and after each final packet. In every night that is
reached so, queues and exchanges agree.
-/

namespace NightlyBackup

open Night

/-- What may happen while sizes are gathered. -/
inductive Turn
  /-- The next request to a host is made. -/
  | ask (h : Nat)
  | packet (h : Nat) (p : Packet)
  | fault (h : Nat) (f : TransportFault)
  /-- The run is called off. -/
  | callOff
  deriving DecidableEq, Repr

def Turn.act : Turn → Planning (Option HostRequest)
  | .ask h => Planning.request h
  | .packet h p => do
    Planning.onReply h p
    pure none
  | .fault h f => do
    Planning.onTransportFault h f
    pure none
  | .callOff => do
    Planning.cancelAll
    pure none

/-- The exchanges with the hosts. -/
structure Talks where
  /-- The hosts to which the next request is still to be made. -/
  due : List Nat
  /-- The hosts that have been sent a request and have not answered it to the end. -/
  running : List Nat
  deriving DecidableEq, Repr

namespace Talks

def begin (n : Night) : Talks := ⟨List.range n.hosts.length, []⟩

def Allows (t : Talks) : Turn → Prop
  | .ask h => h ∈ t.due
  | _ => True

def after (t : Talks) (turn : Turn) (request : Option HostRequest) : Talks :=
  match turn with
  | .ask h =>
    { due := t.due.filter (· ≠ h)
      running := if request.isSome then h :: t.running else t.running }
  | .packet h p =>
    if p.kind.isFinal then { due := h :: t.due, running := t.running.filter (· ≠ h) } else t
  | .fault h _ => { t with running := t.running.filter (· ≠ h) }
  | .callOff => ⟨[], []⟩

/-- No host is due a request and every exchange has ended. -/
def Over (t : Talks) : Prop := t.due = [] ∧ t.running = []

end Talks

/-- A night that turns lead to from the night `n`, and the exchanges then. -/
inductive Reached (n : Night) : Night → Talks → Prop
  | begin : Reached n n (Talks.begin n)
  | turn {m k : Night} {t : Talks} {turn : Turn} {request : Option HostRequest} :
    Reached n m t → t.Allows turn → turn.act m = .ok request k → Reached n k (t.after turn request)

structure Agrees (n : Night) (id : Nat) : Prop where
  start : id ∈ n.queues.start ↔ (n.plan id).progress = .ready
  waiting : id ∈ n.queues.waiting ↔ (n.plan id).progress = .active
  partialEstimate : id ∈ n.queues.partialEstimate ↔ (n.plan id).progress = .partlyDone
  resolved : id ∈ n.queues.estimated ∨ id ∈ n.queues.failed ↔ (n.plan id).progress = .done

def Gathered (n : Night) (id : Nat) : Prop :=
  (id ∈ n.queues.estimated ∧ id ∉ n.queues.failed) ∨
    (id ∉ n.queues.estimated ∧ id ∈ n.queues.failed ∧ (n.plan id).fault.isSome)

/-! ## What every turn keeps -/

structure HostInTurn (t : Talks) (m : Night) (h : Nat) : Prop where
  inTalk : InTalk m h
  due : h ∈ t.due → AtRest m h
  idle : h ∉ t.due → h ∉ t.running → Idle m h

/-- A night that turns have led to from the night `n`. -/
structure InTurn (n : Night) (t : Talks) (m : Night) : Prop where
  conversing : Conversing [] n m
  host : ∀ h, HostInTurn t m h

variable {disks : List Disk} {n m k : Night} {t : Talks} {h : Nat}
  {fail : Fault → Night → Prop}

theorem HostInTurn.untouched {t' : Talks} {g : Nat} (hg : HostInTurn t m g)
    (hu : Untouched g m k) (hdue : g ∈ t'.due ↔ g ∈ t.due)
    (hrunning : g ∈ t'.running ↔ g ∈ t.running) : HostInTurn t' k g :=
  ⟨hu.inTalk hg.inTalk, fun h => hu.atRest (hg.due (hdue.mp h)),
    fun h h' => hu.idle (hg.idle (fun e => h (hdue.mpr e)) fun e => h' (hrunning.mpr e))⟩

/-- After a turn that is about one host, only that host is to be looked at. -/
theorem InTurn.concerns {t' : Talks} (hn : n.Hosted) (hm : InTurn n t m)
    (hk : Conversing [] n k) (hc : Concerns h m k) (hh : HostInTurn t' k h)
    (hdue : ∀ {g}, g ≠ h → (g ∈ t'.due ↔ g ∈ t.due))
    (hrunning : ∀ {g}, g ≠ h → (g ∈ t'.running ↔ g ∈ t.running)) : InTurn n t' k := by
  refine ⟨hk, fun g => ?_⟩
  by_cases hg : g = h
  · exact hg ▸ hh
  · exact (hm.host g).untouched (hc.untouched (hm.conversing.same.hosted hn) hg) (hdue hg)
      (hrunning hg)

theorem leads_ask (hn : n.Hosted) (hm : InTurn n t m) (hdue : h ∈ t.due) :
    Leads (Turn.act (.ask h)) m (fun r k => InTurn n (t.after (.ask h) r) k) fail := by
  apply (Planning.leads_request hn hm.conversing).imp
  rintro request k ⟨hk, hc, hr, -⟩
  obtain ⟨hnone, hsome⟩ := hr ((hm.host h).due hdue)
  refine hm.concerns hn hk hc.toConcerns ⟨?_, ?_, ?_⟩ ?_ ?_
  · cases request with
    | none => exact (hnone rfl).inTalk
    | some request => exact hsome (by simp)
  · intro hd
    simp [Talks.after] at hd
  · intro _ hr
    cases request with
    | none => exact hnone rfl
    | some request => simp [Talks.after] at hr
  · intro g hg
    simp [Talks.after, hg]
  · intro g hg
    simp only [Talks.after]
    split <;> simp [hg]

/-- What a packet does to a host, whatever the host was asked. -/
theorem Answered.idle {kind : PacketKind} (ha : Answered kind h m k) (hsame : m.SameDisks k)
    (hi : Idle m h) : Idle k h := by
  intro id hid
  rw [hsame.disks] at hid
  rcases ha.onward id hid with e | ⟨haw, -⟩ | hr
  · rw [Resolved, e]
    exact hi id hid
  · exact absurd haw (hi id hid).not_awaits
  · exact hr

/-- A packet puts no disk back on the start queue. -/
theorem Answered.asked {kind : PacketKind} (ha : Answered kind h m k) (hsame : m.SameDisks k)
    (hs : Asked m h) : Asked k h := by
  intro id hid
  rw [hsame.disks] at hid
  rcases ha.onward id hid with e | ⟨-, haw | haw⟩ | hr
  · rw [e]
    exact hs id hid
  · simp [haw]
  · simp [haw]
  · exact hr.not_start

theorem Answered.inTurn {kind : PacketKind} (ha : Answered kind h m k) (hc : Concerns h m k)
    (hk : Conversing [] n k) (hh : HostInTurn t m h) :
    InTalk k h ∧ (h ∈ t.due ∨ kind.isFinal = true → AtRest k h) := by
  have hunasked : Unasked m h → Unasked k h := by
    intro hu id hid
    rw [hc.same.disks] at hid
    rcases ha.onward id hid with e | ⟨haw, -⟩ | hr
    · rw [Awaits, e]
      exact hu id hid
    · exact absurd haw (hu id hid)
    · exact hr.not_awaits
  have hasked : Asked m h → Asked k h := ha.asked hc.same
  -- A host is done early only if some of its disks awaited the packet.
  have hdone : (k.host h).state = .done → Idle k h := by
    intro hd
    rcases ha.done hd with hi | ⟨hnot, hu⟩
    · exact hi
    · exact hk.idle hu (hasked (hh.inTalk.asked.resolve_left hnot))
  refine ⟨⟨hh.inTalk.asked.imp hunasked hasked, hdone⟩, fun hrest => ⟨?_, ha.state, hdone⟩⟩
  rcases hrest with hdue | hfinal
  · exact hunasked (hh.due hdue).unasked
  · exact ha.final hfinal

theorem leads_packet (hn : n.Hosted) (hm : InTurn n t m) (p : Packet) :
    Leads (Turn.act (.packet h p)) m (fun r k => InTurn n (t.after (.packet h p) r) k) fail := by
  simp only [Turn.act, leads_bind, leads_pure]
  apply (Planning.leads_onReply hn hm.conversing p).imp
  rintro _ k ⟨hk, hc, ha, -⟩
  obtain ⟨htalk, hrest⟩ := ha.inTurn hc hk (hm.host h)
  simp only [Talks.after]
  split
  · rename_i hfinal
    refine hm.concerns hn hk hc ⟨htalk, fun _ => hrest (Or.inr hfinal), ?_⟩ ?_ ?_
    · intro hd
      simp at hd
    · intro g hg
      simp [hg]
    · intro g hg
      simp [hg]
  · refine hm.concerns hn hk hc ⟨htalk, fun hd => hrest (Or.inl hd), fun hd hr => ?_⟩
      (fun _ => Iff.rfl) fun _ => Iff.rfl
    exact ha.idle hc.same ((hm.host h).idle hd hr)

theorem leads_fault (hn : n.Hosted) (hm : InTurn n t m) (f : TransportFault) :
    Leads (Turn.act (.fault h f)) m (fun r k => InTurn n (t.after (.fault h f) r) k) fail := by
  simp only [Turn.act, Planning.onTransportFault, leads_bind, leads_get, leads_pure]
  apply (Planning.leads_hostFailed hn hm.conversing _).imp
  rintro _ k ⟨hk, hc, hidle, hdone⟩
  refine hm.concerns hn hk hc.toConcerns
    ⟨hidle.inTalk, fun _ => hidle.atRest hdone.not_active, fun _ _ => hidle⟩
    (fun _ => Iff.rfl) fun {g} hg => ?_
  simp [Talks.after, hg]

theorem leads_callOff (hn : n.Hosted) (hm : InTurn n t m) :
    Leads (Turn.act .callOff) m (fun r k => InTurn n (t.after .callOff r) k) fail := by
  simp only [Turn.act, leads_bind, leads_pure]
  apply (Planning.leads_cancelAll hn hm.conversing).imp
  rintro _ k ⟨⟨hk, -⟩, hall⟩
  have hidle : ∀ h, Idle k h := fun h => (hall h).2 (hm.host h).inTalk.done
  exact ⟨hk, fun h => ⟨(hidle h).inTalk, by simp [Talks.after], fun _ _ => hidle h⟩⟩

/-- No turn ends in a fault, and every turn keeps queues and exchanges in step. -/
theorem leads_turn (hn : n.Hosted) (hm : InTurn n t m) {turn : Turn} (ht : t.Allows turn) :
    Leads turn.act m (fun r k => InTurn n (t.after turn r) k) fail := by
  cases turn with
  | ask h => exact leads_ask hn hm ht
  | packet h p => exact leads_packet hn hm p
  | fault h f => exact leads_fault hn hm f
  | callOff => exact leads_callOff hn hm

/-! ## All runs -/

/-- Preparation leaves nothing between queues and exchanges to be put right. -/
theorem InTurn.begin {n₀ : Night} (hf : n₀.Fresh disks) (hn : Planning.SetUp n₀ n) :
    InTurn n (Talks.begin n) n := by
  have hc : Conversing [] n n := by
    refine ⟨hn.sound, .refl n, rfl, fun id => ?_⟩
    by_cases hid : id < n.plans.length
    · cases hn.prepared hid with
      | toAsk place kept => exact Or.inl ⟨place, .ready (hn.progress id) place⟩
      | failed place fault kept => exact Or.inr ⟨hn.progress id, rfl, Or.inr ⟨place, fault⟩⟩
      | leftOut place skipped => exact Or.inr ⟨hn.progress id, rfl, Or.inl place⟩
    · refine Or.inr ⟨hn.progress id, rfl, Or.inl ?_⟩
      cases hp : n.place id with
      | none => rfl
      | some name => exact absurd (hn.sound.lt_of_place hp) hid
  have hready : ∀ h, (n.host h).state = .ready := by
    intro h
    rw [Night.host, hn.hosts]
    exact hf.state h
  have hrest : ∀ h, AtRest n h := by
    intro h
    refine ⟨fun id _ ha => ?_, by rw [hready]; decide, fun hd => ?_⟩
    · rcases hc.standing id with ⟨-, hin⟩ | haside
      · cases hin with
        | ready progress place => simp [Awaits, place] at ha
        | named progress place mem => cases mem
        | waiting progress place => cases (hn.progress id).symm.trans progress
        | answering progress place => cases (hn.progress id).symm.trans progress
        | estimated progress place => cases (hn.progress id).symm.trans progress
        | failed progress place fault => cases (hn.progress id).symm.trans progress
      · rcases haside.why with e | ⟨e, -⟩ <;> simp [Awaits, e] at ha
    · cases (hready h).symm.trans hd
  refine ⟨hc, fun h => ⟨(hrest h).inTalk, fun _ => hrest h, fun hd _ id hid => ?_⟩⟩
  have hh : n.hosts.length ≤ h := by simpa [Talks.begin] using hd
  rw [host_of_le hh] at hid
  cases hid

/-- A night whose disks are prepared is ready for the conversations. -/
theorem conversing_of_prepared {s : Settings} {r : Rotation} {today : Int} {store : Store}
    {n₀ : Night} (hbegin : Night.begin s disks r today = .ok n₀)
    (hprepare : Planning.prepareAll store n₀ = .ok () n) :
    Planning.SetUp n₀ n ∧ n.Hosted ∧ Conversing [] n n := by
  have hfresh := fresh_of_begin hbegin
  have hsetUp := (Planning.leads_prepareAll hfresh store).ok hprepare
  exact ⟨hsetUp, hsetUp.same.hosted hfresh.hosted, (InTurn.begin hfresh hsetUp).conversing⟩

theorem Reached.inTurn (hn : n.Hosted) (hbegin : InTurn n (Talks.begin n) n)
    (hr : Reached n m t) : InTurn n t m := by
  induction hr with
  | begin => exact hbegin
  | turn _ ht hact ih => exact (leads_turn hn ih ht : Leads _ _ _ never).ok hact

theorem Conversing.agrees (hc : Conversing [] n m) {id : Nat} (hid : n.place id = some .start) :
    Agrees m id := by
  have hmem : ∀ name, id ∈ m.queues.members name ↔ m.place id = some name :=
    fun _ => hc.sound.place_iff.symm
  rcases hc.standing id with ⟨-, hin⟩ | haside
  · refine ⟨(hmem .start).trans ?_, (hmem .waiting).trans ?_, (hmem .partialEstimate).trans ?_,
      (or_congr (hmem .estimated) (hmem .failed)).trans ?_⟩ <;> cases hin <;> simp_all
  · rcases haside.why with e | ⟨e, -⟩ <;> simp [hid] at e

/-- When all exchanges have ended no record is open. -/
theorem InTurn.over (hn : n.Hosted) (hm : InTurn n t m) (ho : t.Over) {name : QueueName}
    (hname : name = .start ∨ name = .waiting ∨ name = .partialEstimate) :
    m.queues.members name = [] := by
  refine List.eq_nil_iff_forall_not_mem.mpr fun id hid => ?_
  have hp := hm.conversing.sound.place_iff.mpr hid
  obtain ⟨-, hlisted⟩ := (hm.conversing.same.hosted hn).listed (hm.conversing.sound.lt_of_place hp)
  have hr := (hm.host _).idle (by simp [ho.1]) (by simp [ho.2]) id hlisted
  rw [Resolved, hp] at hr
  rcases hname with rfl | rfl | rfl <;> simp at hr

theorem Closing.gathered (hc : Closing [] n m) {id : Nat} (hid : n.place id = some .start) :
    Gathered m id := by
  have hmem : ∀ name, id ∈ m.queues.members name ↔ m.place id = some name :=
    fun _ => hc.sound.place_iff.symm
  rcases hc.leaving id with ⟨-, hf | ⟨_, hleft, -⟩⟩ | ⟨-, hwhy⟩
  · rcases hf with hp | ⟨hp, hfault⟩
    · refine Or.inl ⟨(hmem .estimated).mpr hp, fun h => ?_⟩
      cases ((hmem .failed).mp h).symm.trans hp
    · refine Or.inr ⟨fun h => ?_, (hmem .failed).mpr hp, hfault⟩
      cases ((hmem .estimated).mp h).symm.trans hp
  · cases hleft
  · rcases hwhy with e | ⟨e, -⟩ <;> simp [hid] at e

/-- **Gathering in step.** Whatever the hosts say and in whatever order, no turn ends in a
fault, and the queue of every disk that was to be asked about is the one that the progress of
the exchange says. In the end every such disk has a size or a reason why it has failed. -/
theorem gathering_in_step {s : Settings} {r : Rotation} {today : Int} {store : Store}
    {n₀ : Night} (hbegin : Night.begin s disks r today = .ok n₀)
    (hprepare : Planning.prepareAll store n₀ = .ok () n) (hreached : Reached n m t) :
    (∀ id ∈ n.queues.start, Agrees m id) ∧
      (∀ turn, t.Allows turn → ∃ request k, turn.act m = .ok request k) ∧
      ∃ k, Planning.finish m = .ok () k ∧ (∀ id ∈ n.queues.start, Gathered k id) ∧
        (t.Over → ∀ id ∈ n.queues.start, Agrees k id) := by
  have hfresh := fresh_of_begin hbegin
  have hsetUp := (Planning.leads_prepareAll hfresh store).ok hprepare
  have hn := hsetUp.same.hosted hfresh.hosted
  have hm := hreached.inTurn hn (.begin hfresh hsetUp)
  have hstart : ∀ id ∈ n.queues.start, n.place id = some .start :=
    fun id hid => hsetUp.sound.place_iff.mpr hid
  refine ⟨fun id hid => hm.conversing.agrees (hstart id hid), fun turn ht => ?_, ?_⟩
  · obtain ⟨request, k, hact, -⟩ := (leads_turn hn hm ht).exists_ok
    exact ⟨request, k, hact⟩
  · obtain ⟨_, k, hfinish, hk⟩ := (Planning.leads_finish hm.conversing).exists_ok
    refine ⟨k, hfinish, fun id hid => hk.gathered (hstart id hid), fun ho => ?_⟩
    have hkept : Leads Planning.finish m (fun _ l => l = m) never := by
      have hwaiting : m.queues.waiting = [] := hm.over hn ho (Or.inr (Or.inl rfl))
      have hpartial : m.queues.partialEstimate = [] := hm.over hn ho (Or.inr (Or.inr rfl))
      have hstart : m.queues.start = [] := hm.over hn ho (Or.inl rfl)
      simp [Planning.finish, hwaiting, hpartial, hstart]
    rw [hkept.ok hfinish]
    exact fun id hid => hm.conversing.agrees (hstart id hid)

/-- One disk whose host is asked and stays silent: its exchange ends, and so does the disk. -/
theorem gathering_in_step_of_silence : ∃ n₀ n m k,
    Night.begin {} [Disk.plain "alpha" "/home" 10 default] default 0 = .ok n₀ ∧
      Planning.prepareAll {} n₀ = .ok () n ∧ n.queues.start = [0] ∧
      Reached n m ⟨[], []⟩ ∧ Planning.finish m = .ok () k ∧ Gathered k 0 ∧ Agrees k 0 := by
  obtain ⟨n₀, hbegin, n, m, request, k, hprepare, hstart, hhosts, hask, hfault⟩ :
      ∃ n₀, Night.begin {} [Disk.plain "alpha" "/home" 10 default] default 0 = .ok n₀ ∧
        ∃ n m request k, Planning.prepareAll {} n₀ = .ok () n ∧ n.queues.start = [0] ∧
          n.hosts.length = 1 ∧ (Turn.ask 0).act n = .ok (some request) m ∧
          (Turn.fault 0 .timeout).act m = .ok none k :=
    ⟨_, rfl, _, _, _, _, rfl, rfl, rfl, rfl, rfl⟩
  have htalks : Talks.begin n = ⟨[0], []⟩ := by
    rw [Talks.begin, hhosts]
    rfl
  have hreached : Reached n k ⟨[], []⟩ := by
    have h := (Reached.begin.turn (by simp [Talks.Allows, htalks]) hask).turn (by trivial) hfault
    rwa [htalks] at h
  obtain ⟨-, -, l, hfinish, hgathered, hover⟩ := gathering_in_step hbegin hprepare hreached
  have hmem : 0 ∈ n.queues.start := by simp [hstart]
  exact ⟨n₀, n, k, l, hbegin, hprepare, hstart, hreached, hfinish, hgathered 0 hmem,
    hover ⟨rfl, rfl⟩ 0 hmem⟩

end NightlyBackup
