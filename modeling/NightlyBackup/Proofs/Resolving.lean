import NightlyBackup.Proofs.Rounds

/-!
What stays as it is when the exchange about a disk is over, or when a host is done. Neither
requests nor faults nor the calling off of the run touch such a disk, and of the packets only
those do that tell something about it; they may change its sizes, but neither its queue nor the
reason why it has failed. A host that is done is sent no more requests.
-/

namespace NightlyBackup

open Night Planning

variable {disks : List Disk} {n m k : Night} {t : Talks} {h id : Nat}
  {fail : Fault → Night → Prop}

/-! ## Disks -/

/-- The exchange about a disk is over: the disk has a size, or it has failed. -/
structure Night.Over (m : Night) (id : Nat) : Prop where
  progress : (m.plan id).progress = .done
  place : m.place id = some .estimated ∨ m.place id = some .failed

/-- The turn is a packet that tells something about the disk of the record. -/
def Turn.Names (n : Night) (id : Nat) : Turn → Prop
  | .packet h p => p.Names n h id
  | _ => False

theorem Packet.names_iff {p : Packet} (hs : n.SameDisks m) : p.Names m h id ↔ p.Names n h id := by
  have hname : m.diskName id = n.diskName id := hs.diskName id
  rw [Packet.Names, Packet.Names, hs.disks, hs.hostName, hname]

theorem leads_turn_preserved (hn : n.Hosted) (hc : Conversing [] n m) (turn : Turn) :
    Leads turn.act m (fun _ k => Conversing [] n k ∧
      ∀ id, (m.plan id).progress = .done → Preserved (turn.Names n id) id m k) fail := by
  cases turn with
  | ask h =>
    apply (leads_request hn hc).imp
    rintro _ k ⟨hk, hmk, -⟩
    exact ⟨hk, fun id => hmk.finished.preserved⟩
  | packet h p =>
    simp only [Turn.act, leads_bind, leads_pure]
    apply (leads_onReply hn hc p).imp
    rintro _ k ⟨hk, -, -, hmk⟩
    exact ⟨hk, fun id ho => (hmk id ho).mono (Packet.names_iff hc.same).mp⟩
  | fault h f =>
    simp only [Turn.act, Planning.onTransportFault, leads_bind, leads_get, leads_pure]
    apply (leads_hostFailed hn hc _).imp
    rintro _ k ⟨hk, hmk, -⟩
    exact ⟨hk, fun id => hmk.finished.preserved⟩
  | callOff =>
    simp only [Turn.act, leads_bind, leads_pure]
    apply (leads_cancelAll hn hc).imp
    rintro _ k ⟨⟨hk, hmk⟩, -⟩
    exact ⟨hk, fun id => hmk.preserved⟩

/-- Whatever turns follow, a disk whose exchange is over keeps all but what packets tell about
it. -/
theorem leads_takeTurns_preserved (hn : n.Hosted) (hc : Conversing [] n m) (turns : List Turn) :
    Leads (takeTurns turns) m (fun _ k => Conversing [] n k ∧
      ∀ id, (m.plan id).progress = .done →
        Preserved (∃ turn ∈ turns, turn.Names n id) id m k) fail := by
  induction turns generalizing m with
  | nil => exact ⟨hc, fun _ _ => .refl⟩
  | cons turn turns ih =>
    show Leads ((do let _ ← turn.act) >>= fun _ => takeTurns turns) m _ fail
    simp only [leads_bind, leads_pure]
    apply (leads_turn_preserved hn hc turn).imp
    rintro _ l ⟨hl, hml⟩
    apply (ih hl).imp
    rintro _ k ⟨hk, hlk⟩
    refine ⟨hk, fun id ho => ?_⟩
    have hfirst := hml id ho
    have hrest := hlk id (hfirst.retold.progress.trans ho)
    refine (hfirst.mono fun hnames => ?_).trans (hrest.mono ?_)
    · exact ⟨turn, List.mem_cons_self .., hnames⟩
    · rintro ⟨other, hother, hnames⟩
      exact ⟨other, List.mem_cons_of_mem _ hother, hnames⟩

/-! ## Hosts -/

structure Through (m : Night) (h : Nat) : Prop where
  idle : Idle m h
  state : (m.host h).state ≠ .active

theorem Through.untouched (ht : Through m h) (hu : Untouched h m k) : Through k h :=
  ⟨hu.idle ht.idle, by rw [hu.host]; exact ht.state⟩

theorem HostDone.untouched (hd : HostDone m h) (hu : Untouched h m k) (hs : m.SameDisks k) :
    HostDone k h := by
  rw [HostDone, hu.host, hs.hosts]
  exact hd

/-- A host without open disks is sent no request. -/
theorem leads_request_idle (hn : n.Hosted) (hc : Conversing [] n m) (hi : Idle m h) :
    Leads (request h) m (fun request k => Conversing [] n k ∧ request = none ∧
      (k = m ∨ (Idle k h ∧ HostDone k h))) fail := by
  simp only [Planning.request, leads_bind, leads_get]
  split
  · exact ⟨hc, rfl, Or.inl rfl⟩
  · simp only [leads_bind, leads_get]
    apply (leads_expectAll hn hc).imp
    rintro _ k ⟨hk, hm, -, hs⟩
    have hidle : Idle k h := by
      intro id hid
      rw [hm.same.disks] at hid
      rcases (hs id hid).1 with e | hr
      · rw [Resolved, e]
        exact hi id hid
      · exact Or.inr hr
    have hall : ((k.host h).disks.all fun id => k.queues.queueOf id ≠ some .start) = true :=
      List.all_eq_true.mpr fun id hid => decide_eq_true (hidle id hid).not_start
    rw [if_pos hall]
    refine ⟨hk.setState h .done, rfl, Or.inr ⟨fun id hid => ?_, hostDone_setHost k h⟩⟩
    rw [(Spares.setState h k .done).same.disks] at hid
    exact hidle id hid

/-- What a turn does to a host of which nothing more is to come. -/
structure PassesBy (h : Nat) (turn : Turn) (m k : Night) : Prop where
  through : Through k h
  done : (∀ p, turn ≠ .packet h p) → HostDone m h → HostDone k h

/-- A turn about another host. -/
theorem Concerns.passesBy {g : Nat} {turn : Turn} (hm : Concerns g m k) (hn : m.Hosted)
    (ht : Through m h) (hg : h ≠ g) : PassesBy h turn m k := by
  have hu := hm.untouched hn hg
  exact ⟨ht.untouched hu, fun _ hd => hd.untouched hu hm.same⟩

/-- Whatever a turn is about, nothing more comes of the host. It stays done unless a packet of
it comes. -/
theorem leads_turn_through (hn : n.Hosted) (hc : Conversing [] n m) (ht : Through m h)
    (turn : Turn) : Leads turn.act m (fun _ k => Conversing [] n k ∧
      PassesBy h turn m k) fail := by
  have hm := hc.same.hosted hn
  cases turn with
  | ask g =>
    by_cases hg : h = g
    · subst hg
      apply (leads_request_idle hn hc ht.idle).imp
      rintro _ k ⟨hk, -, rfl | ⟨hidle, hdone⟩⟩
      · exact ⟨hk, ht, fun _ hd => hd⟩
      · exact ⟨hk, ⟨hidle, hdone.not_active⟩, fun _ _ => hdone⟩
    · apply (leads_request hn hc).imp
      rintro _ k ⟨hk, hmk, -⟩
      exact ⟨hk, hmk.passesBy hm ht hg⟩
  | packet g p =>
    simp only [Turn.act, leads_bind, leads_pure]
    apply (leads_onReply hn hc p).imp
    rintro _ k ⟨hk, hmk, ha, -⟩
    refine ⟨hk, ?_⟩
    by_cases hg : h = g
    · subst hg
      exact ⟨⟨ha.idle hmk.same ht.idle, ha.state⟩, fun hp => absurd rfl (hp p)⟩
    · exact hmk.passesBy hm ht hg
  | fault g f =>
    simp only [Turn.act, Planning.onTransportFault, leads_bind, leads_get, leads_pure]
    apply (leads_hostFailed hn hc _).imp
    rintro _ k ⟨hk, hmk, hidle, hdone⟩
    refine ⟨hk, ?_⟩
    by_cases hg : h = g
    · subst hg
      exact ⟨⟨hidle, hdone.not_active⟩, fun _ _ => hdone⟩
    · exact hmk.passesBy hm ht hg
  | callOff =>
    simp only [Turn.act, leads_bind, leads_pure]
    apply (leads_cancelAll hn hc).imp
    rintro _ k ⟨⟨hk, -⟩, hall⟩
    obtain ⟨hdone, hidle⟩ := hall h
    exact ⟨hk, ⟨hidle fun _ => ht.idle, hdone.not_active⟩, fun _ _ => hdone⟩

/-- Whatever turns follow, nothing more comes of the host. -/
theorem leads_takeTurns_through (hn : n.Hosted) (hc : Conversing [] n m) (ht : Through m h)
    (turns : List Turn) : Leads (takeTurns turns) m (fun _ k => Conversing [] n k ∧ Through k h ∧
      ((∀ p, .packet h p ∉ turns) → HostDone m h → HostDone k h)) fail := by
  induction turns generalizing m with
  | nil => exact ⟨hc, ht, fun _ hd => hd⟩
  | cons turn turns ih =>
    show Leads ((do let _ ← turn.act) >>= fun _ => takeTurns turns) m _ fail
    simp only [leads_bind, leads_pure]
    apply (leads_turn_through hn hc ht turn).imp
    rintro _ l ⟨hl, hml⟩
    apply (ih hl hml.through).imp
    rintro _ k ⟨hk, htk, hdone⟩
    refine ⟨hk, htk, fun hp hd => ?_⟩
    refine hdone (fun p hmem => hp p (List.mem_cons_of_mem _ hmem)) (hml.done (fun p e => ?_) hd)
    exact hp p (e ▸ List.mem_cons_self ..)

/-! ## All runs -/

/-- **Resolved for good.** Once the exchange about a disk is over, no turn and not the end of all
conversations either moves it to another queue or changes the reason why it has failed; and unless
a packet tells something about it, nothing of its plan is changed. A host that is done is never
asked again, and it stays done unless a packet of it comes. -/
theorem resolved_for_good {s : Settings} {r : Rotation} {today : Int} {store : Store}
    {n₀ : Night} (hbegin : Night.begin s disks r today = .ok n₀)
    (hprepare : prepareAll store n₀ = .ok () n) (hreached : Reached n m t) (turns : List Turn) :
    ∃ k f, takeTurns turns m = .ok () k ∧ finish k = .ok () f ∧
      (∀ id, m.Over id → Preserved (∃ turn ∈ turns, turn.Names n id) id m k ∧
        f.plan id = k.plan id ∧ f.place id = k.place id) ∧
      ∀ h, (m.host h).state = .done → (k.host h).state ≠ .active ∧ f.host h = k.host h ∧
        ((∀ p, .packet h p ∉ turns) → (k.host h).state = .done) ∧
        ∀ request l, Planning.request h k = .ok request l → request = none := by
  have hfresh := fresh_of_begin hbegin
  have hsetUp := (leads_prepareAll hfresh store).ok hprepare
  have hn := hsetUp.same.hosted hfresh.hosted
  have hm := hreached.inTurn hn (.begin hfresh hsetUp)
  obtain ⟨_, k, hturns, hk, hdisks⟩ :=
    (leads_takeTurns_preserved hn hm.conversing turns).exists_ok
  obtain ⟨_, f, hfinish, -, honly⟩ := (leads_finish_open hk).exists_ok
  refine ⟨k, f, hturns, hfinish, fun id ho => ?_, fun h hd => ?_⟩
  · have hkept := hdisks id ho.progress
    refine ⟨hkept, honly.resolved ?_⟩
    rw [Resolved, hkept.place]
    exact Or.inr ho.place
  · have ht : Through m h := ⟨(hm.host h).inTalk.done hd, by simp [hd]⟩
    have hrun : Leads (takeTurns turns) m _ never :=
      leads_takeTurns_through hn hm.conversing ht turns
    obtain ⟨-, htk, hdone⟩ := hrun.reached hturns
    have hlt : h < m.hosts.length := by
      by_contra hge
      rw [host_of_le (Nat.le_of_not_lt hge)] at hd
      cases hd
    have hlength : k.hosts.length = m.hosts.length :=
      hk.same.hosts.trans hm.conversing.same.hosts.symm
    refine ⟨htk.state, ?_, fun hp => hdone hp (fun _ => hd) (hlength ▸ hlt),
      fun request l hreq => ?_⟩
    · simp only [Night.host, honly.hosts]
    · have hask : Leads (Planning.request h) k _ never := leads_request_idle hn hk htk.idle
      exact (hask.reached hreq).2.1

def eitherSized : Disk :=
  { Disk.plain "alpha" "/home" 10 default with sizeSources := [.client, .server] }

/-- The host breaks off its exchange by a packet that nobody understands, and its disk has the
size that was expected. If a good packet follows, its sizes are taken all the same. -/
theorem exists_brokenOff : ∃ n₀ n m, Night.begin {} [eitherSized] default 0 = .ok n₀ ∧
    prepareAll {} n₀ = .ok () n ∧ (∃ t, Reached n m t) ∧ m.Over 0 ∧
    (m.host 0).state = .done ∧ (m.plan 0).levels.map (·.size) = [.sized 1000] ∧
    Leads (takeTurns [.packet 0 ⟨.rep, "/home 0 SIZE 7\n"⟩]) m (fun _ k =>
      (k.plan 0).levels.map (·.size) = [.sized 7] ∧ (k.host 0).state = .ready) never := by
  obtain ⟨n₀, n, a, m, request, hbegin, hprepare, hhosts, hask, hpacket, hprogress, hplace,
      hrest⟩ : ∃ n₀ n a m request, Night.begin {} [eitherSized] default 0 = .ok n₀ ∧
        prepareAll {} n₀ = .ok () n ∧ n.hosts.length = 1 ∧
        (Turn.ask 0).act n = .ok (some request) a ∧
        (Turn.packet 0 ⟨.prep, "?"⟩).act a = .ok none m ∧
        (m.plan 0).progress = .done ∧ m.place 0 = some .estimated ∧
        (m.host 0).state = .done ∧ (m.plan 0).levels.map (·.size) = [.sized 1000] ∧
        Leads (takeTurns [.packet 0 ⟨.rep, "/home 0 SIZE 7\n"⟩]) m (fun _ k =>
          (k.plan 0).levels.map (·.size) = [.sized 7] ∧ (k.host 0).state = .ready) never :=
    ⟨_, _, _, _, _, rfl, rfl, rfl, rfl, rfl, rfl, rfl, rfl, by decide +kernel, by decide +kernel⟩
  have hdue : (Talks.begin n).Allows (.ask 0) := by simp [Talks.Allows, Talks.begin, hhosts]
  have hreached := (Reached.begin.turn hdue hask).turn (by trivial) hpacket
  exact ⟨n₀, n, m, hbegin, hprepare, ⟨_, hreached⟩, ⟨hprogress, Or.inl hplace⟩, hrest⟩

/-- After the host broke off its exchange, nothing is changed by a timeout or when the run is
called off. -/
theorem resolved_for_good_after_break : ∃ n₀ n m k f,
    Night.begin {} [eitherSized] default 0 = .ok n₀ ∧ prepareAll {} n₀ = .ok () n ∧
    (∃ t, Reached n m t) ∧ takeTurns [.fault 0 .timeout, .callOff] m = .ok () k ∧
    finish k = .ok () f ∧ m.Over 0 ∧ f.plan 0 = m.plan 0 ∧ f.place 0 = m.place 0 ∧
    (m.host 0).state = .done ∧ (f.host 0).state = .done := by
  obtain ⟨n₀, n, m, hbegin, hprepare, ⟨t, hreached⟩, hover, hdone, -⟩ := exists_brokenOff
  obtain ⟨k, f, hk, hf, hdisks, hhosts⟩ :=
    resolved_for_good hbegin hprepare hreached [.fault 0 .timeout, .callOff]
  obtain ⟨hkept, hplan, hplace⟩ := hdisks 0 hover
  obtain ⟨-, hhost, hstill, -⟩ := hhosts 0 hdone
  refine ⟨n₀, n, m, k, f, hbegin, hprepare, ⟨t, hreached⟩, hk, hf, hover, ?_, ?_, hdone, ?_⟩
  · exact hplan.trans (hkept.plan (by simp [Turn.Names]))
  · exact hplace.trans hkept.place
  · rw [hhost]
    exact hstill (by simp)

/-- After the host broke off its exchange, a packet changes the size of its disk and makes the
host ready again. -/
theorem resized_after_break : ∃ n₀ n m k, Night.begin {} [eitherSized] default 0 = .ok n₀ ∧
    prepareAll {} n₀ = .ok () n ∧ (∃ t, Reached n m t) ∧
    takeTurns [.packet 0 ⟨.rep, "/home 0 SIZE 7\n"⟩] m = .ok () k ∧ m.Over 0 ∧
    (k.plan 0).levels.map (·.size) ≠ (m.plan 0).levels.map (·.size) ∧
    (m.host 0).state = .done ∧ (k.host 0).state = .ready := by
  obtain ⟨n₀, n, m, hbegin, hprepare, hreached, hover, hdone, hsize, hlate⟩ := exists_brokenOff
  obtain ⟨_, k, hk, hresized, hready⟩ := hlate.exists_ok
  refine ⟨n₀, n, m, k, hbegin, hprepare, hreached, hk, hover, ?_, hdone, hready⟩
  rw [hsize, hresized]
  decide

end NightlyBackup
