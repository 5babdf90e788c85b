import NightlyBackup.Proofs.Hearing
import NightlyBackup.Proofs.Isolation

/-!
The traffic with the hosts. A host is sent the first question, then perhaps a request for sizes,
and nothing more: features are known after the first answer, and once sizes were asked for, no disk
of the host is left to be asked about. This holds in whatever order the hosts deliver what they
say.
-/

namespace NightlyBackup

open Night Planning

variable {n m k : Night} {h g : Nat} {due : List Nat} {sent : List HostRequest}
  {next : Option HostRequest} {fail : Fault → Night → Prop}

/-! ## The loop -/

def kindsTo (sent : List HostRequest) (h : Nat) : List RequestKind :=
  (sent.filter (·.host = h)).map (·.kind)

/-- The loop that gathers sizes, between two deliveries. -/
structure Traffic where
  night : Night
  /-- Every request that was sent, in order. -/
  sent : List HostRequest
  /-- The hosts whose exchanges go on. -/
  running : List Nat

def Delivery.speaks : Delivery → Bool
  | .packet _ | .fault _ => true
  | .silent | .cancel => false

namespace Traffic

def asked (s : Traffic) (next : Option HostRequest) (night : Night) : Traffic where
  night := night
  sent := s.sent ++ next.toList
  running := s.running ++ next.toList.map (·.host)

def ended (s : Traffic) (h : Nat) (night : Night) : Traffic :=
  { s with night := night, running := s.running.filter (· ≠ h) }

def after (s : Traffic) (h : Nat) (d : Delivery) (next : Option HostRequest) (night : Night) :
    Traffic :=
  if d.isLast then (s.ended h night).asked next night else { s with night := night }

theorem after_fault {s : Traffic} {f : TransportFault} :
    s.after h (.fault f) none k = s.ended h k := by
  simp [after, asked, ended, Delivery.isLast]

structure Delivers (s : Traffic) (h : Nat) (d : Delivery) (t : Traffic) : Prop where
  running : h ∈ s.running
  speaks : d.speaks = true
  taken : ∃ next k, takeDelivery h d s.night = .ok next k ∧ t = s.after h d next k

end Traffic

/-- The loop that gathers sizes from the night `n`, whatever hosts deliver and in whatever order.
The run may be called off, and what was sent may be noted down. -/
inductive Looping (n : Night) : Traffic → Prop
  | opened {m : Night} {requests : List HostRequest} : firstRequests n = .ok requests m →
    Looping n ⟨m, requests, requests.map (·.host)⟩
  | delivered {s t : Traffic} {h : Nat} {d : Delivery} : Looping n s → s.Delivers h d t →
    Looping n t
  | calledOff {s : Traffic} {k : Night} : Looping n s → cancelAll s.night = .ok () k →
    Looping n { s with night := k, running := [] }
  | noted {s : Traffic} (texts : List (String × String)) : Looping n s →
    Looping n { s with night := { s.night with sent := texts } }

theorem kindsTo_append (sent more : List HostRequest) (h : Nat) :
    kindsTo (sent ++ more) h = kindsTo sent h ++ kindsTo more h := by
  simp [kindsTo]

theorem kindsTo_singleton {r : HostRequest} (hr : r.host = h) : kindsTo [r] h = [r.kind] := by
  simp [kindsTo, hr]

theorem kindsTo_singleton_of_ne {r : HostRequest} (hr : r.host ≠ h) : kindsTo [r] h = [] := by
  simp [kindsTo, hr]

/-- There are no more requests than the requests to each host add up to. -/
theorem length_le_of_kindsTo {bound hosts : Nat} (hknown : ∀ r ∈ sent, r.host < hosts)
    (hkinds : ∀ h, (kindsTo sent h).length ≤ bound) : sent.length ≤ bound * hosts := by
  induction hosts generalizing sent with
  | zero =>
    have hnone : sent = [] :=
      List.eq_nil_iff_forall_not_mem.mpr fun r hr => Nat.not_lt_zero _ (hknown r hr)
    simp [hnone]
  | succ hosts ih =>
    have hlast : (sent.filter (·.host = hosts)).length ≤ bound := by
      simpa [kindsTo] using hkinds hosts
    have hothers : (sent.filter fun r => !decide (r.host = hosts)).length ≤ bound * hosts := by
      refine ih (fun r hr => ?_) fun h => ?_
      · have hne : r.host ≠ hosts := by simpa using (List.mem_filter.mp hr).2
        have hlt := hknown r (List.mem_filter.mp hr).1
        omega
      · have hsub := (List.filter_sublist (l := sent)
          (p := fun r => !decide (r.host = hosts))).filter (fun r => decide (r.host = h))
        exact Nat.le_trans (hsub.map _).length_le (hkinds h)
    have hsplit := List.length_eq_length_filter_add (l := sent) fun r => decide (r.host = hosts)
    rw [Nat.mul_succ]
    omega

/-! ## How far the traffic with a host has come -/

/-- A host between deliveries. -/
inductive HostTraffic (s : Traffic) (h : Nat) : Prop
  | unsent (kinds : kindsTo s.sent h = []) (quiet : h ∉ s.running)
  | probed (kinds : kindsTo s.sent h = [.probe])
  | asked (kinds : kindsTo s.sent h = [.probe, .sizes]) (asked : Asked s.night h)

/-- A host to which the next request is about to be made. -/
inductive HostDue (s : Traffic) (h : Nat) : Prop
  | unsent (kinds : kindsTo s.sent h = []) (features : (s.night.host h).features = none)
  | probed (kinds : kindsTo s.sent h = [.probe])
    (heard : Asked s.night h ∨ (s.night.host h).features ≠ none)
  | asked (kinds : kindsTo s.sent h = [.probe, .sizes]) (asked : Asked s.night h)

def Night.SizedAlone (n : Night) (h : Nat) : Prop :=
  ∀ id ∈ (n.host h).disks, n.place id = some .start →
    (n.plan id).disk.serverSized = true ∧ (n.plan id).disk.clientSource = none

/-- The loop in good order; requests to the hosts in `due` are about to be made. -/
structure InTraffic (n : Night) (due : List Nat) (s : Traffic) : Prop where
  inTurn : InTurn n ⟨due, s.running⟩ s.night
  nodup : s.running.Nodup
  known : ∀ r ∈ s.sent, r.host < n.hosts.length
  host : ∀ h, h ∉ due → HostTraffic s h
  alone : ∀ h, n.SizedAlone h → kindsTo s.sent h = [] ∧ h ∉ s.running

/-- Only membership matters for the order of turns. -/
theorem InTurn.congr {t t' : Talks} (hm : InTurn n t m) (hdue : ∀ h, h ∈ t'.due ↔ h ∈ t.due)
    (hrunning : ∀ h, h ∈ t'.running ↔ h ∈ t.running) : InTurn n t' m :=
  ⟨hm.conversing, fun h => (hm.host h).untouched ⟨rfl, fun _ _ => rfl⟩ (hdue h) (hrunning h)⟩

theorem Idle.asked (hi : Idle m h) : Asked m h := fun id hid => (hi id hid).not_start

theorem lt_of_not_asked (ha : ¬Asked m h) : h < m.hosts.length := by
  by_contra hle
  refine ha fun id hid => ?_
  rw [host_of_le (Nat.not_lt.mp hle)] at hid
  cases hid

namespace HostTraffic

variable {s t : Traffic}

theorem kinds_bounded (ht : HostTraffic s h) :
    kindsTo s.sent h <+: [RequestKind.probe, .sizes] := by
  cases ht with
  | unsent kinds _ => exact kinds ▸ List.nil_prefix
  | probed kinds => exact kinds ▸ List.prefix_append [RequestKind.probe] [.sizes]
  | asked kinds _ => exact kinds ▸ List.prefix_rfl

/-- What is done about other hosts does not matter. -/
theorem untouched (ht : HostTraffic s h) (hu : Untouched h s.night t.night)
    (hkinds : kindsTo t.sent h = kindsTo s.sent h) (hrunning : h ∈ t.running ↔ h ∈ s.running) :
    HostTraffic t h := by
  cases ht with
  | unsent kinds quiet => exact .unsent (hkinds.trans kinds) (mt hrunning.mp quiet)
  | probed kinds => exact .probed (hkinds.trans kinds)
  | asked kinds asked => exact .asked (hkinds.trans kinds) (hu.asked asked)

end HostTraffic

/-- The next request to a host is the one that is missing. -/
theorem HostDue.hostTraffic {s : Traffic} (hd : HostDue s h) (hquiet : h ∉ s.running)
    (hsends : ∀ r ∈ next, Sends h s.night k r) (hnone : next = none → Asked k h) :
    HostTraffic (s.asked next k) h := by
  cases next with
  | none =>
    have hkinds : kindsTo (s.asked none k).sent h = kindsTo s.sent h := by
      simp [Traffic.asked]
    cases hd with
    | unsent kinds _ => exact .unsent (hkinds.trans kinds) (by simpa [Traffic.asked] using hquiet)
    | probed kinds _ => exact .probed (hkinds.trans kinds)
    | asked kinds _ => exact .asked (hkinds.trans kinds) (hnone rfl)
  | some r =>
    have hr := hsends r rfl
    have hkinds : kindsTo (s.asked (some r) k).sent h = kindsTo s.sent h ++ [r.kind] := by
      simp [Traffic.asked, kindsTo_append, kindsTo_singleton hr.host]
    cases hd with
    | unsent kinds features =>
      refine .probed ?_
      rw [hkinds, kinds, hr.first features]
      rfl
    | probed kinds heard =>
      obtain ⟨hkind, hasked⟩ := hr.second (heard.resolve_left hr.unasked)
      refine .asked ?_ hasked
      rw [hkinds, kinds, hkind]
      rfl
    | asked _ asked => exact absurd asked hr.unasked

/-! ## Requests -/

theorem kindsTo_asked {s : Traffic} (hnext : ∀ r ∈ next, r.host = h) (hg : g ≠ h) :
    kindsTo (s.asked next k).sent g = kindsTo s.sent g := by
  cases next with
  | none => simp [Traffic.asked]
  | some r =>
    have hr : r.host ≠ g := fun e => hg (e.symm.trans (hnext r rfl))
    simp [Traffic.asked, kindsTo_append, kindsTo_singleton_of_ne hr]

theorem mem_running_asked {s : Traffic} (hnext : ∀ r ∈ next, r.host = h) :
    g ∈ (s.asked next k).running ↔ g ∈ s.running ∨ (next.isSome ∧ g = h) := by
  cases next with
  | none => simp [Traffic.asked]
  | some r => simp [Traffic.asked, hnext r rfl]

/-- A request that is due keeps the loop in good order. -/
theorem leads_due {s : Traffic} (hn : n.Hosted) (hs : InTraffic n due s) (hdue : h ∈ due)
    (hquiet : h ∉ s.running) (hd : HostDue s h)
    (halone : n.SizedAlone h → Leads (request h) s.night (fun next _ => next = none) anyhow) :
    Leads (request h) s.night (fun next k => InTraffic n (due.filter (· ≠ h)) (s.asked next k) ∧
      ∀ r ∈ next, Sends h s.night k r) fail := by
  have hc := hs.inTurn.conversing
  have hask : Leads (request h) s.night _ never := leads_ask hn hs.inTurn hdue
  have hnone : Leads (request h) s.night (fun next _ => n.SizedAlone h → next = none) anyhow :=
    leads_anyhow fun next k e ha => (halone ha).ok e
  refine ((hask.and (leads_request hn hc : Leads _ _ _ never)).and hnone).mono ?_
    fun _ _ hf => hf.1.1.elim
  rintro next k ⟨⟨hk, -, hspares, -, hsends⟩, hnone⟩
  have hnext : ∀ r ∈ next, r.host = h := fun r hr => (hsends r hr).host
  have hrunning : ∀ g, g ≠ h → (g ∈ (s.asked next k).running ↔ g ∈ s.running) := by
    intro g hg
    rw [mem_running_asked hnext]
    simp [hg]
  have hk : InTurn n ⟨due.filter (· ≠ h), (s.asked next k).running⟩ k := by
    refine hk.congr (fun g => Iff.rfl) fun g => ?_
    rw [mem_running_asked hnext]
    simp only [Talks.after]
    cases next <;> simp [or_comm]
  refine ⟨⟨hk, ?_, ?_, fun g hg => ?_, fun g ha => ?_⟩, hsends⟩
  · cases next with
    | none => simpa [Traffic.asked] using hs.nodup
    | some r =>
      have hr : r.host ∉ s.running := hnext r rfl ▸ hquiet
      refine List.nodup_append.mpr ⟨hs.nodup, by simp, ?_⟩
      rintro a ha b hb rfl
      obtain rfl := List.mem_singleton.mp hb
      exact hr ha
  · intro r hr
    rcases List.mem_append.mp hr with hr | hr
    · exact hs.known r hr
    · have hr := hsends r (by simpa using hr)
      rw [hr.host, ← hc.same.hosts]
      exact lt_of_not_asked hr.unasked
  · by_cases hgh : g = h
    · subst hgh
      refine hd.hostTraffic hquiet hsends fun e => ?_
      refine ((hk.host g).idle (by simp) ?_).asked
      rw [mem_running_asked hnext]
      simp [e, hquiet]
    · have hgdue : g ∉ due := fun hmem => hg (by simp [hmem, hgh])
      have hu := hspares.untouched (hc.same.hosted hn) hgh
      exact (hs.host g hgdue).untouched hu (kindsTo_asked hnext hgh) (hrunning g hgh)
  · obtain ⟨hkinds, hg⟩ := hs.alone g ha
    by_cases hgh : g = h
    · subst hgh
      have e := hnone ha
      subst e
      simpa [Traffic.asked] using ⟨hkinds, hg⟩
    · exact ⟨(kindsTo_asked hnext hgh).trans hkinds, fun hr => hg ((hrunning g hgh).mp hr)⟩

/-! ## Deliveries -/

namespace InTraffic

variable {s t : Traffic}

theorem lt_of_running (hs : InTraffic n due s) (hdue : h ∉ due) (hrun : h ∈ s.running) :
    h < n.hosts.length := by
  obtain ⟨r, hr⟩ : ∃ r, r ∈ s.sent.filter (·.host = h) := by
    refine List.exists_mem_of_ne_nil _ fun hnone => ?_
    have hkinds : kindsTo s.sent h = [] := congrArg (List.map _) hnone
    cases hs.host h hdue with
    | unsent _ quiet => exact quiet hrun
    | probed kinds => cases hkinds.symm.trans kinds
    | asked kinds _ => cases hkinds.symm.trans kinds
  have hhost : r.host = h := by simpa using (List.mem_filter.mp hr).2
  exact hhost ▸ hs.known r (List.mem_filter.mp hr).1

/-- After something was done about one host and nothing was sent, only that host is to be looked
at. -/
theorem concerns (hn : n.Hosted) (hs : InTraffic n [] s) (hc : Concerns h s.night t.night)
    (hk : InTurn n ⟨due, t.running⟩ t.night) (hsent : t.sent = s.sent)
    (hsub : t.running.Sublist s.running) (hothers : ∀ g, g ≠ h → g ∈ s.running → g ∈ t.running)
    (hh : h ∉ due → HostTraffic t h) : InTraffic n due t := by
  refine ⟨hk, hs.nodup.sublist hsub, hsent ▸ hs.known, fun g hg => ?_, fun g ha => ?_⟩
  · by_cases hgh : g = h
    · exact hgh ▸ hh (hgh ▸ hg)
    · have hu := hc.untouched (hs.inTurn.conversing.same.hosted hn) hgh
      exact (hs.host g (by simp)).untouched hu (by rw [hsent])
        ⟨fun hr => hsub.subset hr, hothers g hgh⟩
  · obtain ⟨hkinds, hquiet⟩ := hs.alone g ha
    exact ⟨by rw [hsent, hkinds], fun hr => hquiet (hsub.subset hr)⟩

theorem mem_ended {g : Nat} : g ∈ (s.ended h k).running ↔ g ∈ s.running ∧ g ≠ h := by
  simp [Traffic.ended]

/-- The exchange with the host `h` has ended. -/
theorem ended (hn : n.Hosted) (hs : InTraffic n [] s) (hc : Concerns h s.night k)
    (hk : InTurn n ⟨due, s.running.filter (· ≠ h)⟩ k)
    (hh : h ∉ due → HostTraffic (s.ended h k) h) : InTraffic n due (s.ended h k) :=
  hs.concerns hn hc hk rfl List.filter_sublist (fun _ hg hr => mem_ended.mpr ⟨hr, hg⟩) hh

end InTraffic

/-- The request `r` follows the delivery `d` of the host `h`: it is the one for sizes, and the
host has answered the first question to the end without failing. -/
structure FollowsUp (s : Traffic) (h : Nat) (d : Delivery) (r : HostRequest) : Prop where
  host : r.host = h
  kind : r.kind = .sizes
  probed : kindsTo s.sent h = [.probe]
  answered : ∃ p l, d = .packet p ∧ p.kind.isFinal = true ∧ hear h p s.night = .ok none l

/-- A packet is taken from a host whose exchange goes on. -/
theorem leads_packet_traffic {s : Traffic} (hn : n.Hosted) (hs : InTraffic n [] s)
    (hrun : h ∈ s.running) (p : Packet) :
    Leads (onReply h p) s.night (fun _ l =>
      InTurn n ((⟨[], s.running⟩ : Talks).after (.packet h p) none) l ∧ Concerns h s.night l ∧
        (Asked s.night h → Asked l h) ∧
        (Idle l h ∨ (∃ l, hear h p s.night = .ok none l) ∧ (l.host h).features ≠ none)) fail := by
  have hc := hs.inTurn.conversing
  have hlt : h < s.night.hosts.length := hc.same.hosts ▸ hs.lt_of_running (by simp) hrun
  have hturn : Leads (onReply h p) s.night (fun _ l =>
      InTurn n ((⟨[], s.running⟩ : Talks).after (.packet h p) none) l) never := by
    have hact : Leads (Turn.act (.packet h p)) s.night _ never := leads_packet hn hs.inTurn p
    simp only [Turn.act, leads_bind, leads_pure] at hact
    exact hact
  refine ((hturn.and (leads_onReply hn hc p : Leads _ _ _ never)).and
    (heard_onReply hn hc p hlt)).mono ?_ fun _ _ hf => hf.1.1.elim
  rintro _ l ⟨⟨hl, -, hcon, hanswered, -⟩, hheard⟩
  exact ⟨hl, hcon, hanswered.asked hcon.same, hheard⟩

/-- Whatever a host delivers whose exchange goes on, it keeps the loop in good order. -/
theorem leads_delivery {s : Traffic} {d : Delivery} (hn : n.Hosted) (hs : InTraffic n [] s)
    (hrun : h ∈ s.running) (hd : d.speaks = true) :
    Leads (takeDelivery h d) s.night (fun next k => InTraffic n [] (s.after h d next k) ∧
      ∀ r ∈ next, FollowsUp s h d r) fail := by
  have hkinds := hs.host h (by simp)
  cases d with
  | silent => cases hd
  | cancel => cases hd
  | fault f =>
    have hact : Leads (Turn.act (.fault h f)) s.night _ never := leads_fault hn hs.inTurn f
    simp only [Turn.act, onTransportFault, leads_bind, leads_get, leads_pure] at hact
    simp only [takeDelivery, onTransportFault, leads_bind, leads_get, leads_pure]
    refine (hact.and (leads_hostFailed hn hs.inTurn.conversing _ : Leads _ _ _ never)).mono ?_
      fun _ _ hf => hf.1.elim
    rintro _ k ⟨hk, -, hspares, hidle, -⟩
    refine ⟨?_, by simp⟩
    rw [Traffic.after_fault]
    refine hs.ended hn hspares.toConcerns hk fun _ => ?_
    cases hkinds with
    | unsent _ quiet => exact absurd hrun quiet
    | probed kinds => exact .probed kinds
    | asked kinds _ => exact .asked kinds hidle.asked
  | packet p =>
    simp only [takeDelivery, leads_bind]
    apply (leads_packet_traffic hn hs hrun p).imp
    rintro _ l ⟨hl, hcon, hasked, hheard⟩
    split
    · rename_i hfinal
      simp only [Talks.after, hfinal, if_true] at hl
      have hl := hs.ended hn hcon hl fun hd => absurd (List.mem_singleton.mpr rfl) hd
      have hdue : HostDue (s.ended h l) h := by
        cases hkinds with
        | unsent _ quiet => exact absurd hrun quiet
        | probed kinds => exact .probed kinds (hheard.imp Idle.asked And.right)
        | asked kinds asked => exact .asked kinds (hasked asked)
      refine (leads_due hn hl (List.mem_singleton.mpr rfl) (by simp [Traffic.ended]) hdue
        fun ha => absurd hrun (hs.alone h ha).2).imp ?_
      rintro next k ⟨hk, hsends⟩
      refine ⟨?_, fun r hr => ?_⟩
      · have hnone : [h].filter (· ≠ h) = [] := by simp
        rw [Traffic.after, Delivery.isLast, if_pos hfinal]
        exact hnone ▸ hk
      have hr := hsends r hr
      obtain ⟨⟨x, hx⟩, hfeatures⟩ := hheard.resolve_left fun hi => hr.unasked hi.asked
      refine ⟨hr.host, (hr.second hfeatures).1, ?_, p, x, rfl, hfinal, hx⟩
      cases hkinds with
      | unsent _ quiet => exact absurd hrun quiet
      | probed kinds => exact kinds
      | asked _ asked => exact absurd (hasked asked) hr.unasked
    · rename_i hfinal
      simp only [Talks.after, hfinal] at hl
      refine ⟨?_, by simp⟩
      rw [Traffic.after, Delivery.isLast, if_neg hfinal]
      refine hs.concerns hn hcon hl rfl (List.Sublist.refl _) (fun _ _ hr => hr) fun _ => ?_
      cases hkinds with
      | unsent kinds quiet => exact .unsent kinds quiet
      | probed kinds => exact .probed kinds
      | asked kinds asked => exact .asked kinds (hasked asked)

/-! ## The first requests -/

structure DiskPlan.SizedAlone (p : DiskPlan) : Prop where
  serverSized : p.disk.serverSized = true
  clientSource : p.disk.clientSource = none
  progress : p.progress = .ready
  pending : ∀ e ∈ p.levels, e.size = .pending

namespace Planning

theorem place_expectSizes {id : Nat} (hs : m.Sound)
    (ha : m.place id = some .start → (m.plan id).SizedAlone) :
    Leads (expectSizes id) m (fun _ k => k.place id ≠ some .start) anyhow := by
  simp only [expectSizes, leads_bind, leads_get]
  split
  · rename_i hawaits
    have hp : m.place id = some .start := by
      simp only [awaitsExpected, Bool.and_eq_true, decide_eq_true_eq] at hawaits
      exact hawaits.1.1.1
    have hb := Becomes.refl hs (hs.lt_of_place hp)
    rw [hp] at hb
    simp only [(ha hp).clientSource, Option.isNone_none, if_true, leads_bind]
    refine leads_setPlan hb (fun _ => ⟨rfl, rfl⟩) fun k hk => ?_
    rw [leads_reckon]
    refine leads_setPlan (hk.reckon _) (fun _ => ⟨rfl, rfl⟩) fun k hk => ?_
    exact leads_moveTo hk fun k hk e => by cases hk.place.symm.trans e
  · rename_i hkept
    intro hp
    have hp' : m.queues.queueOf id = some .start := hp
    have hlevels : (m.plan id).levels.all (·.size = .pending) = true :=
      List.all_eq_true.mpr fun e he => decide_eq_true ((ha hp).pending e he)
    exact hkept (by simp [awaitsExpected, hp', (ha hp).progress, (ha hp).serverSized, hlevels])

/-- A host whose disks are all sized by their history is sent nothing. -/
theorem request_alone (hn : n.Hosted) (hc : Conversing [] n m)
    (ha : ∀ id ∈ (m.host h).disks, m.place id = some .start → (m.plan id).SizedAlone) :
    Leads (request h) m (fun next _ => next = none) anyhow := by
  simp only [request, leads_bind, leads_get]
  split
  · rfl
  · simp only [leads_bind, leads_get]
    refine (leads_forM_disks (I := fun _ => True)
      (P := fun _ p q => q = some .start → p.SizedAlone) (Q := fun _ _ q => q ≠ some .start)
      hn rfl ?_ hc trivial ha).imp ?_
    · intro id _ k hk _ hp
      refine ((leads_expectSizes (h := h) hk.sound (hk.standing id) : Leads _ _ _ never).and
        (place_expectSizes hk.sound hp)).mono ?_ fun _ _ hf => hf.1.elim
      rintro _ l ⟨⟨hv, -⟩, hl⟩
      exact ⟨hv, trivial, hl⟩
    · rintro _ k ⟨-, hspares, -, hplace⟩
      have hall : ((k.host h).disks.all fun id => k.queues.queueOf id ≠ some .start) = true :=
        List.all_eq_true.mpr fun id hid =>
          decide_eq_true (hplace id (hspares.same.disks h ▸ hid))
      rw [if_pos hall]
      rfl

end Planning

/-- The loop while the first requests are made; the hosts in `due` are as they were in `n`. -/
structure Opening (n : Night) (due : List Nat) (s : Traffic) : Prop
    extends InTraffic n due s where
  same : ∀ h ∈ due, SameFor n h n s.night
  fresh : ∀ h ∈ due, kindsTo s.sent h = [] ∧ h ∉ s.running
  noted : s.night.sent = n.sent

section
variable (hn : n.Hosted) (hsound : n.Sound) (hfeatures : ∀ h, (n.host h).features = none)
  (hready : ∀ id, (n.plan id).progress = .ready ∧ ∀ e ∈ (n.plan id).levels, e.size = .pending)

include hn hsound hfeatures hready

/-- The first request to a host. -/
theorem leads_open {s : Traffic} (hs : Opening n (h :: due) s) (hd : h ∉ due) :
    Leads (request h) s.night (fun next k => Opening n due (s.asked next k)) fail := by
  obtain ⟨hkinds, hquiet⟩ := hs.fresh h (List.mem_cons_self ..)
  have hsame := hs.same h (List.mem_cons_self ..)
  have hc := hs.inTurn.conversing
  have hlater : n.Later s.night := ⟨hc.sound, hc.same⟩
  have hthis : n.Later n := ⟨hsound, .refl n⟩
  have halone : n.SizedAlone h → Leads (request h) s.night (fun next _ => next = none) anyhow := by
    refine fun ha => request_alone hn hc fun id hid hp => ?_
    rw [hc.same.disks] at hid
    have howner := (hn.owner hid).2
    rw [hsame.plan howner]
    rw [Night.place, hsame.queueOf hthis hlater howner] at hp
    exact ⟨(ha id hid hp).1, (ha id hid hp).2, (hready id).1, (hready id).2⟩
  have hleaves : Leads (request h) s.night (fun _ k => Leaves n h s.night k) anyhow :=
    leads_anyhow fun _ k e => (confined_request hn).leaves hlater e
  have hdue : HostDue s h := .unsent hkinds (by rw [hsame.host, hfeatures])
  refine ((leads_due hn hs.toInTraffic (List.mem_cons_self ..) hquiet hdue halone :
    Leads _ _ _ never).and hleaves).mono ?_ fun _ _ hf => hf.1.elim
  rintro next k ⟨⟨hk, hsends⟩, hleaves⟩
  have hnext : ∀ r ∈ next, r.host = h := fun r hr => (hsends r hr).host
  have hrest : (h :: due).filter (· ≠ h) = due := by
    rw [List.filter_cons_of_neg (by simp)]
    exact List.filter_eq_self.mpr fun g hg => decide_eq_true (ne_of_mem_of_not_mem hg hd)
  refine ⟨hrest ▸ hk, fun g hg => ?_, fun g hg => ?_, hleaves.sent.trans hs.noted⟩
  · have hgh : g ≠ h := fun e => hd (e ▸ hg)
    exact (hs.same g (List.mem_cons_of_mem _ hg)).trans (hleaves.others hgh)
  · have hgh : g ≠ h := fun e => hd (e ▸ hg)
    obtain ⟨hkinds, hquiet⟩ := hs.fresh g (List.mem_cons_of_mem _ hg)
    refine ⟨(kindsTo_asked hnext hgh).trans hkinds, ?_⟩
    rw [mem_running_asked hnext]
    simp [hquiet, hgh]

theorem leads_openAll {s : Traffic} (hs : Opening n due s) (hd : due.Nodup) :
    Leads (due.mapM request) s.night (fun rs k => Opening n []
      ⟨k, s.sent ++ rs.filterMap (·), s.running ++ (rs.filterMap (·)).map (·.host)⟩) fail := by
  induction due generalizing s with
  | nil =>
    simp only [List.mapM_nil, leads_pure, List.filterMap_nil, List.map_nil, List.append_nil]
    exact hs
  | cons h due ih =>
    obtain ⟨hh, hd⟩ := List.nodup_cons.mp hd
    simp only [List.mapM_cons, leads_bind, leads_pure]
    refine (leads_open hn hsound hfeatures hready hs hh).imp fun next k hk => ?_
    refine (ih hk hd).imp fun rs l hl => ?_
    cases next <;> simpa [Traffic.asked] using hl

end

end NightlyBackup
