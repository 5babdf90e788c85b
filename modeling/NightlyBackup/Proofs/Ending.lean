import NightlyBackup.Proofs.Traffic

/-!
The end of gathering. Requests are bounded, and every exchange that ends leaves one request less to
come; so gathering ends unless some exchange never does, and no more rounds are needed than there
can be requests.
-/

namespace NightlyBackup

open Night Planning

variable {disks : List Disk} {n m k : Night} {h : Nat} {s t u : Traffic} {hosts : List Nat}
  {requests next more : List HostRequest} {fail : Fault → Night → Prop}

/-! ## The loop -/

/-- What is noted down does not matter to the loop. -/
theorem InTraffic.noted (hs : InTraffic n [] s) (texts : List (String × String)) :
    InTraffic n [] { s with night := { s.night with sent := texts } } := by
  have hu : ∀ h, Untouched h s.night { s.night with sent := texts } :=
    fun _ => ⟨rfl, fun _ _ => rfl⟩
  refine ⟨⟨conversing_noteSent hs.inTurn.conversing texts, fun h => ?_⟩, hs.nodup, hs.known,
    fun h hd => ?_, hs.alone⟩
  · exact (hs.inTurn.host h).untouched (hu h) Iff.rfl Iff.rfl
  · exact (hs.host h hd).untouched (hu h) rfl Iff.rfl

theorem InTraffic.calledOff (hn : n.Hosted) (hs : InTraffic n [] s)
    (e : cancelAll s.night = .ok () k) :
    InTraffic n [] { s with night := k, running := [] } := by
  have hoff : Leads (Turn.act .callOff) s.night _ never := leads_callOff hn hs.inTurn
  simp only [Turn.act, leads_bind, leads_pure] at hoff
  have hk := hoff.ok e
  refine ⟨hk, List.nodup_nil, hs.known, fun h hd => ?_, fun h ha => ?_⟩
  · cases hs.host h hd with
    | unsent kinds _ => exact .unsent kinds List.not_mem_nil
    | probed kinds => exact .probed kinds
    | asked kinds _ =>
      exact .asked kinds ((hk.host h).idle (by simp [Talks.after]) (by simp [Talks.after])).asked
  · exact ⟨(hs.alone h ha).1, List.not_mem_nil⟩

/-- The first requests are made in good order. -/
theorem leads_firstRequests_opening {settings : Settings} {rotation : Rotation} {today : Int}
    {store : Store} {n₀ : Night} (hbegin : Night.begin settings disks rotation today = .ok n₀)
    (hprepare : prepareAll store n₀ = .ok () n) :
    Leads firstRequests n (fun requests m =>
      Opening n [] ⟨m, requests, requests.map (·.host)⟩) fail := by
  have hfresh := fresh_of_begin hbegin
  have hsetUp := (leads_prepareAll hfresh store).ok hprepare
  have hpending := (pending_kept.prepareAll (fun id => by rw [hfresh.levels]; simp) store).ok
    hprepare
  have hopening : Opening n (List.range n.hosts.length) ⟨n, [], []⟩ :=
    { inTurn := InTurn.begin hfresh hsetUp
      nodup := List.nodup_nil
      known := by simp
      host := fun _ _ => .unsent rfl List.not_mem_nil
      alone := fun _ _ => ⟨rfl, List.not_mem_nil⟩
      same := fun _ _ => .refl ..
      fresh := fun _ _ => ⟨rfl, List.not_mem_nil⟩
      noted := rfl }
  have hfeatures : ∀ h, (n.host h).features = none := fun h => by
    rw [Night.host, hsetUp.hosts]
    exact hfresh.features h
  simp only [firstRequests, leads_bind, leads_get, leads_pure]
  refine (leads_openAll (hsetUp.same.hosted hfresh.hosted) hsetUp.sound hfeatures
    (fun id => ⟨hsetUp.progress id, fun e he => (hpending id e he).1⟩) hopening
    List.nodup_range).imp ?_
  intro rs m hm
  simpa using hm

theorem Looping.inTraffic (hn : n.Hosted) (hopen : Leads firstRequests n (fun requests m =>
      Opening n [] ⟨m, requests, requests.map (·.host)⟩) never) (hl : Looping n s) :
    InTraffic n [] s := by
  induction hl with
  | opened e => exact (hopen.ok e).toInTraffic
  | delivered _ hd ih =>
    obtain ⟨next, k, e, rfl⟩ := hd.taken
    have hdelivery : Leads _ _ _ never := leads_delivery hn ih hd.running hd.speaks
    exact (hdelivery.ok e).1
  | calledOff _ e ih => exact ih.calledOff hn e
  | noted texts _ ih => exact ih.noted texts

/-! ## Bounds -/

structure WithinBounds (n : Night) (sent : List HostRequest) : Prop where
  kinds : ∀ h, kindsTo sent h <+: [.probe, .sizes]
  alone : ∀ h, n.SizedAlone h → kindsTo sent h = []
  total : sent.length ≤ 2 * n.hosts.length

theorem InTraffic.withinBounds (hs : InTraffic n [] s) : WithinBounds n s.sent := by
  have hkinds : ∀ h, kindsTo s.sent h <+: [RequestKind.probe, .sizes] :=
    fun h => (hs.host h (by simp)).kinds_bounded
  exact ⟨hkinds, fun h ha => (hs.alone h ha).1,
    length_le_of_kindsTo hs.known fun h => (hkinds h).length_le⟩

/-- With every exchange that ends, one request more is done with. -/
theorem Traffic.Delivers.length {d : Delivery} (hd : s.Delivers h d t) (hs : s.running.Nodup) :
    t.sent.length + s.running.length =
      s.sent.length + t.running.length + if d.isLast then 1 else 0 := by
  obtain ⟨next, k, -, rfl⟩ := hd.taken
  unfold Traffic.after
  split
  · have hlength : (s.running.filter fun g => g != h).length + 1 = s.running.length := by
      have herase : (s.running.erase h).length + 1 = s.running.length := by
        rw [List.length_erase_of_mem hd.running]
        have := List.length_pos_of_mem hd.running
        omega
      rw [hs.erase_eq_filter] at herase
      exact herase
    simp only [Traffic.asked, Traffic.ended, List.length_append, List.length_map, ne_eq,
      ← bne_iff_ne, Bool.decide_eq_true]
    omega
  · rfl

/-- Deliveries without end: at every moment some host whose exchange goes on delivers more. -/
structure Endless (n : Night) (run : Nat → Traffic) (said : Nat → Nat × Delivery) : Prop where
  begin : Looping n (run 0)
  step : ∀ i, (run i).Delivers (said i).1 (said i).2 (run (i + 1))

namespace Endless

variable {run : Nat → Traffic} {said : Nat → Nat × Delivery}

theorem looping (he : Endless n run said) (i : Nat) : Looping n (run i) := by
  induction i with
  | zero => exact he.begin
  | succ i ih => exact .delivered ih (he.step i)

/-- By the time `i`, at least `count` exchanges have ended since the beginning. -/
def Done (run : Nat → Traffic) (i count : Nat) : Prop :=
  (run 0).sent.length + (run i).running.length + count ≤
    (run i).sent.length + (run 0).running.length

theorem done_of_le (he : Endless n run said) (hs : ∀ i, InTraffic n [] (run i)) {i j count : Nat}
    (hij : i ≤ j) (hi : Done run i count) : Done run j count := by
  induction hij with
  | refl => exact hi
  | @step j _ ih =>
    have hlength := (he.step j).length (hs j).nodup
    unfold Done at ih ⊢
    rw [Nat.succ_eq_add_one]
    omega

/-- Where deliveries have no end, some exchange has none. -/
theorem exists_endless (he : Endless n run said) (hs : ∀ i, InTraffic n [] (run i)) :
    ∃ i, ∃ h ∈ (run i).running, ∀ j, i ≤ j → (said j).1 = h → (said j).2.isLast = false := by
  by_contra hall
  push Not at hall
  have hdone : ∀ count, ∃ i, Done run i count := by
    intro count
    induction count with
    | zero => exact ⟨0, Nat.le_refl _⟩
    | succ count ih =>
      obtain ⟨i, hi⟩ := ih
      obtain ⟨j, hij, -, hlast⟩ := hall i (said i).1 (he.step i).running
      have hlength := (he.step j).length (hs j).nodup
      have hj := he.done_of_le hs hij hi
      rw [if_pos (by simpa using hlast)] at hlength
      refine ⟨j + 1, ?_⟩
      unfold Done at hj ⊢
      omega
  -- More exchanges would have ended than requests can be made.
  obtain ⟨i, hi⟩ := hdone (2 * n.hosts.length + (run 0).running.length + 1)
  have htotal := (hs i).withinBounds.total
  unfold Done at hi
  omega

end Endless

/-! ## Rounds -/

/-- From `s` on, deliveries of the given hosts have led to `t` and brought the requests `next`. -/
structure Taken (n : Night) (hosts : List Nat) (s t : Traffic) (next : List HostRequest) :
    Prop where
  inTraffic : InTraffic n [] t
  sent : t.sent = s.sent ++ next
  requests : (next.map (·.host)).Sublist hosts
  running : ∀ r ∈ next, r.host ∈ t.running
  others : ∀ g, g ∉ hosts → (g ∈ t.running ↔ g ∈ s.running)
  noted : t.night.sent = s.night.sent

namespace Taken

theorem refl (hs : InTraffic n [] s) (hosts : List Nat) : Taken n hosts s s [] :=
  ⟨hs, (List.append_nil _).symm, List.nil_sublist _, by simp, fun _ _ => Iff.rfl, rfl⟩

/-- Two deliveries of the same host, of which the first brought no request. -/
theorem trans (hst : Taken n hosts s t []) (htu : Taken n hosts t u next) :
    Taken n hosts s u next :=
  ⟨htu.inTraffic, by rw [htu.sent, hst.sent, List.append_nil], htu.requests, htu.running,
    fun g hg => (htu.others g hg).trans (hst.others g hg), htu.noted.trans hst.noted⟩

/-- Deliveries of one host, and then of other hosts. -/
theorem append (hst : Taken n [h] s t next) (htu : Taken n hosts t u more) (hh : h ∉ hosts) :
    Taken n (h :: hosts) s u (next ++ more) := by
  refine ⟨htu.inTraffic, ?_, ?_, fun r hr => ?_, fun g hg => ?_, htu.noted.trans hst.noted⟩
  · rw [htu.sent, hst.sent, List.append_assoc]
  · rw [List.map_append]
    exact hst.requests.append htu.requests
  · rcases List.mem_append.mp hr with hr | hr
    · have hto : r.host = h :=
        List.mem_singleton.mp (hst.requests.subset (List.mem_map_of_mem hr))
      exact (htu.others _ (hto ▸ hh)).mpr (hst.running r hr)
    · exact htu.running r hr
  · obtain ⟨hgh, hg⟩ := List.ne_and_not_mem_of_not_mem_cons hg
    exact (htu.others g hg).trans (hst.others g (by simpa using hgh))

end Taken

namespace Planning

theorem takeDeliveries_append (a b : List (Nat × Delivery)) :
    takeDeliveries (a ++ b) = (do
      let first ← takeDeliveries a
      pure (first ++ (← takeDeliveries b))) := by
  induction a with
  | nil => simp [takeDeliveries]
  | cons x a ih => simp [takeDeliveries, ih, ← List.append_assoc]

/-- One delivery of a host whose exchange goes on. -/
theorem leads_takeOne {d : Delivery} (hn : n.Hosted) (hs : InTraffic n [] s)
    (hrun : h ∈ s.running) (hd : d.speaks = true) :
    Leads (takeDelivery h d) s.night (fun next k => Taken n [h] s (s.after h d next k) next.toList ∧
      (d.isLast = false → next = none ∧ h ∈ (s.after h d next k).running)) fail := by
  have hlater : n.Later s.night := ⟨hs.inTurn.conversing.sound, hs.inTurn.conversing.same⟩
  have hconfined : Confined n h (takeDelivery h d) := by
    cases d with
    | packet p =>
      refine .bind (confined_onReply hn p) fun _ => ?_
      split
      · exact confined_request hn
      · exact .pure _
    | fault f => exact .bind (confined_onTransportFault hn f) fun _ => .pure _
    | silent => cases hd
    | cancel => cases hd
  have hsent : Leads (takeDelivery h d) s.night (fun _ k => k.sent = s.night.sent) anyhow :=
    leads_anyhow fun _ _ e => (hconfined.leaves hlater e).sent
  refine ((leads_delivery hn hs hrun hd : Leads _ _ _ never).and hsent).mono ?_
    fun _ _ hf => hf.1.elim
  rintro next k ⟨⟨hk, hfollows⟩, hsent⟩
  have hhosts : ∀ r ∈ next, r.host = h := fun r hr => (hfollows r hr).host
  by_cases hlast : d.isLast = true
  · rw [Traffic.after, if_pos hlast] at hk ⊢
    refine ⟨⟨hk, rfl, ?_, ?_, fun g hg => ?_, hsent⟩, by simp [hlast]⟩
    · cases next with
      | none => simp
      | some r => simp [hhosts r rfl]
    · intro r hr
      exact List.mem_append_right _ (List.mem_map_of_mem hr)
    · rw [mem_running_asked hhosts, InTraffic.mem_ended]
      simp [show g ≠ h by simpa using hg]
  · -- Only a final packet brings a request.
    have hnone : next = none := by
      cases next with
      | none => rfl
      | some r =>
        obtain ⟨p, _, rfl, hfinal, -⟩ := (hfollows r rfl).answered
        exact absurd hfinal hlast
    subst hnone
    rw [Traffic.after, if_neg hlast] at hk ⊢
    exact ⟨⟨hk, (List.append_nil _).symm, List.nil_sublist _, by simp, fun _ _ => Iff.rfl,
      hsent⟩, fun _ => ⟨rfl, hrun⟩⟩

/-- The last delivery of an exchange. A host that falls silent goes on running. -/
theorem leads_takeLast {d : Delivery} (hn : n.Hosted) (hs : InTraffic n [] s)
    (hrun : h ∈ s.running) (hlast : d.isLast = true) :
    Leads (takeDeliveries [(h, d)]) s.night
      (fun next k => ∃ t, t.night = k ∧ Taken n [h] s t next) fail := by
  simp only [takeDeliveries, leads_bind, leads_pure, List.append_nil]
  by_cases hd : d.speaks = true
  · refine (leads_takeOne hn hs hrun hd).imp fun next k hk => ?_
    exact ⟨_, by rw [Traffic.after, if_pos hlast]; rfl, hk.1⟩
  · cases d with
    | packet p => exact absurd rfl hd
    | fault f => exact absurd rfl hd
    | silent => exact ⟨s, rfl, .refl hs _⟩
    | cancel => exact ⟨s, rfl, .refl hs _⟩

/-- One exchange is taken to its end. -/
theorem leads_takeExchange (hn : n.Hosted) (hs : InTraffic n [] s) (hrun : h ∈ s.running)
    (deliveries : List Delivery) :
    Leads (takeDeliveries ((Delivery.untilLast deliveries).map (h, ·))) s.night
      (fun next k => ∃ t, t.night = k ∧ Taken n [h] s t next) fail := by
  induction deliveries generalizing s with
  | nil => exact leads_takeLast hn hs hrun rfl
  | cons d rest ih =>
    unfold Delivery.untilLast
    split
    · rename_i hlast
      exact leads_takeLast hn hs hrun hlast
    · rename_i hlast
      have hlast : d.isLast = false := by simpa using hlast
      have hd : d.speaks = true := by cases d <;> first | rfl | cases hlast
      simp only [List.map_cons, takeDeliveries, leads_bind, leads_pure]
      refine (leads_takeOne hn hs hrun hd).imp fun next k hk => ?_
      obtain ⟨hst, hgoesOn⟩ := hk
      obtain ⟨rfl, hrun⟩ := hgoesOn hlast
      have hnight : (s.after h d none k).night = k := by simp [Traffic.after, hlast]
      have hrest := ih hst.inTraffic hrun
      rw [hnight] at hrest
      refine hrest.imp ?_
      rintro more l ⟨t, ht, htu⟩
      exact ⟨t, ht, hst.trans htu⟩

/-- A round: every exchange that was started before it is taken to its end. -/
theorem leads_takeRound (hn : n.Hosted) {round : List (HostRequest × List Delivery)}
    (hround : ∀ x ∈ round, ∃ deliveries, x.2 = Delivery.untilLast deliveries)
    (hd : (round.map (·.1.host)).Nodup) (hs : InTraffic n [] s)
    (hrun : ∀ x ∈ round, x.1.host ∈ s.running) :
    Leads (takeDeliveries (deliveriesOf round)) s.night
      (fun next k => ∃ t, t.night = k ∧ Taken n (round.map (·.1.host)) s t next) fail := by
  induction round generalizing s with
  | nil => exact ⟨s, rfl, .refl hs _⟩
  | cons x round ih =>
    obtain ⟨r, deliveries⟩ := x
    obtain ⟨hh, hrest⟩ : r.host ∉ round.map (·.1.host) ∧ (round.map (·.1.host)).Nodup :=
      List.nodup_cons.mp hd
    obtain ⟨ds, rfl⟩ := hround (r, deliveries) (List.mem_cons_self ..)
    have hcons : deliveriesOf ((r, Delivery.untilLast ds) :: round) =
        (Delivery.untilLast ds).map (r.host, ·) ++ deliveriesOf round := rfl
    rw [hcons, takeDeliveries_append]
    simp only [leads_bind, leads_pure]
    refine (leads_takeExchange hn hs (hrun _ (List.mem_cons_self ..)) ds).imp ?_
    rintro next k ⟨t, rfl, hst⟩
    have hrunning : ∀ x ∈ round, x.1.host ∈ t.running := by
      intro x hx
      have hne : x.1.host ∉ [r.host] := by
        rw [List.mem_singleton]
        exact fun e => hh (List.mem_map.mpr ⟨x, hx, e⟩)
      exact (hst.others _ hne).mpr (hrun x (List.mem_cons_of_mem _ hx))
    refine (ih (fun x hx => hround x (List.mem_cons_of_mem _ hx)) hrest hst.inTraffic
      hrunning).imp ?_
    rintro more l ⟨u, rfl, htu⟩
    exact ⟨u, rfl, hst.append htu hh⟩

variable {σ : Type}

theorem answers_spec (net : Network σ) (x : σ) (requests : List HostRequest) :
    (net.answers x requests).1.map (·.1) = requests ∧
      ∀ y ∈ (net.answers x requests).1, ∃ deliveries, y.2 = Delivery.untilLast deliveries := by
  induction requests generalizing x with
  | nil => exact ⟨rfl, by simp [Network.answers]⟩
  | cons r requests ih =>
    obtain ⟨hmap, hall⟩ := ih (net.answer x r).2
    refine ⟨congrArg (r :: ·) hmap, fun y hy => ?_⟩
    rcases List.mem_cons.mp hy with rfl | hy
    · exact ⟨_, rfl⟩
    · exact hall y hy

def textsOf (requests : List HostRequest) : List (String × String) :=
  requests.map fun r => (r.hostName, r.body)

/-- Rounds go on for as long as there are requests, if only enough rounds are granted. -/
theorem exchange_cons (net : Network σ) (rounds : Nat) (x : σ) {r : HostRequest}
    (htaken : takeDeliveries (deliveriesOf (net.answers x (r :: requests)).1)
      { m with sent := m.sent ++ textsOf (r :: requests) } = .ok next k) :
    exchange net (rounds + 1) x (r :: requests) m =
      (do
        let rest ← exchange net rounds (net.answers x (r :: requests)).2 next
        let silences := (net.answers x (r :: requests)).1.filterMap fun (r, deliveries) =>
          silence? r deliveries
        pure (silences ++ rest)) k := by
  have hnoted : noteSent (r :: requests) m =
      .ok () { m with sent := m.sent ++ textsOf (r :: requests) } := rfl
  simp only [exchange, bind, EStateM.bind, hnoted, htaken]

theorem exchange_nil (net : Network σ) (rounds : Nat) (x : σ) :
    exchange net rounds x [] = pure [] := by
  cases rounds <;> rfl

/-- Enough rounds are granted for all requests that can be made: more of them make no difference,
and every request is noted down. -/
theorem leads_exchange_traffic (hn : n.Hosted) (net : Network σ) {rounds : Nat} {x : σ}
    (hs : InTraffic n [] s) (hd : (requests.map (·.host)).Nodup)
    (hrun : ∀ r ∈ requests, r.host ∈ s.running)
    (hrounds : 2 * n.hosts.length < rounds + s.sent.length) :
    Leads (exchange net rounds x requests) s.night (fun silences k =>
      (∀ extra, exchange net (rounds + extra) x requests s.night = .ok silences k) ∧
      ∃ t more, t.night = k ∧ InTraffic n [] t ∧ t.sent = s.sent ++ more ∧
        k.sent = s.night.sent ++ textsOf (requests ++ more)) fail := by
  induction rounds generalizing x s requests with
  | zero =>
    have := hs.withinBounds.total
    omega
  | succ rounds ih =>
    cases requests with
    | nil =>
      simp only [exchange_nil]
      exact ⟨fun _ => rfl, s, [], rfl, hs, by simp, by simp [textsOf]⟩
    | cons r requests =>
      obtain ⟨hmap, hround⟩ := answers_spec net x (r :: requests)
      have hhosts : (net.answers x (r :: requests)).1.map (·.1.host) =
          (r :: requests).map (·.host) := by
        conv_rhs => rw [← hmap]
        simp
      have hrunning : ∀ y ∈ (net.answers x (r :: requests)).1, y.1.host ∈ s.running :=
        fun y hy => hrun y.1 (hmap ▸ List.mem_map_of_mem hy)
      have htake : Leads _ _ _ never := leads_takeRound hn hround (hhosts ▸ hd)
        (hs.noted (s.night.sent ++ textsOf (r :: requests))) hrunning
      obtain ⟨next, _, htaken, t, rfl, hst⟩ := htake.exists_ok
      have hcons := fun rounds => exchange_cons net rounds x htaken
      rw [leads_congr (hcons rounds)]
      -- Either nothing more is to be asked, or there is one request more for the next rounds.
      have hrest : Leads (exchange net rounds (net.answers x (r :: requests)).2 next) t.night
          (fun silences k => (∀ extra, exchange net (rounds + extra)
              (net.answers x (r :: requests)).2 next t.night = .ok silences k) ∧
            ∃ u more, u.night = k ∧ InTraffic n [] u ∧ u.sent = t.sent ++ more ∧
              k.sent = t.night.sent ++ textsOf (next ++ more)) fail := by
        by_cases hnext : next = []
        · subst hnext
          simp only [exchange_nil]
          exact ⟨fun _ => rfl, t, [], rfl, hst.inTraffic, by simp, by simp [textsOf]⟩
        · refine ih hst.inTraffic (hst.requests.nodup (hhosts ▸ hd)) hst.running ?_
          have hpos := List.length_pos_of_ne_nil hnext
          rw [hst.sent, List.length_append]
          simp only at hrounds ⊢
          omega
      rw [leads_bind]
      refine hrest.imp ?_
      rintro silences k ⟨hextra, u, more, rfl, hu, hsent, hnoted⟩
      refine ⟨fun extra => ?_, u, next ++ more, rfl, hu, ?_, ?_⟩
      · rw [Nat.add_right_comm, hcons]
        simp only [bind, EStateM.bind, hextra]
        rfl
      · rw [hsent, hst.sent, List.append_assoc]
      · rw [hnoted, hst.noted]
        simp [textsOf]

/-! ## All that is sent -/

/-- What is done about hosts, one after the other, sends nothing. -/
theorem sent_forM {ι : Type} {visit : ι → Planning Unit} {ids : List ι}
    (hv : ∀ i ∈ ids, ∃ h, Confined n h (visit i)) (hm : n.Later m) :
    Leads (ids.forM visit) m (fun _ k => n.Later k ∧ k.sent = m.sent) anyhow := by
  refine leads_forM_keeps (I := fun k => n.Later k ∧ k.sent = m.sent) ?_ ⟨hm, rfl⟩
  rintro i hi k ⟨hk, hsent⟩
  obtain ⟨h, hc⟩ := hv i hi
  exact leads_anyhow fun _ l e =>
    ⟨(hc.leaves hk e).later, (hc.leaves hk e).sent.trans hsent⟩

theorem sent_cancelAll (hn : n.Hosted) (hm : n.Later m) :
    Leads cancelAll m (fun _ k => n.Later k ∧ k.sent = m.sent) anyhow := by
  simp only [cancelAll, leads_bind, leads_get]
  refine sent_forM (fun h _ => ⟨h, .look (fun l _ => ?_) fun l k _ _ hs => by rw [hs.host]⟩) hm
  split
  · exact confined_hostFailed hn _
  · exact .pure ()

theorem sent_endSilences (hn : n.Hosted) (hm : n.Later m) (silences : List Silence) :
    Leads (endSilences silences) m (fun _ k => n.Later k ∧ k.sent = m.sent) anyhow := by
  unfold endSilences
  split
  · exact sent_cancelAll hn hm
  · exact sent_forM (fun silence _ => ⟨_, confined_onTransportFault hn .timeout⟩) hm

theorem sent_finish (hm : n.Later m) :
    Leads finish m (fun _ k => k.sent = m.sent) anyhow := by
  simp only [finish, leads_bind, leads_get]
  refine (sent_forM (fun id _ => ⟨_, confined_strand rfl⟩) hm).imp ?_
  rintro _ k ⟨hk, hmk⟩
  refine (sent_forM (fun id _ => ⟨_, confined_closePartial rfl⟩) hk).imp ?_
  rintro _ l ⟨hl, hkl⟩
  refine (sent_forM (fun id _ => ⟨_, confined_closeUnasked rfl⟩) hl).imp ?_
  rintro _ x ⟨-, hlx⟩
  exact hlx.trans (hkl.trans hmk)

/-- What gathering sends is within bounds. -/
theorem sent_gather (hn : n.Hosted) (hopen : Leads firstRequests n (fun requests m =>
      Opening n [] ⟨m, requests, requests.map (·.host)⟩) never) (net : Network σ) (x : σ)
    (cancelled : Bool) : Leads (gather net x cancelled) n (fun _ k =>
      ∃ sent, k.sent = n.sent ++ textsOf sent ∧ WithinBounds n sent) anyhow := by
  have hnothing : WithinBounds n [] :=
    ⟨fun _ => List.nil_prefix, fun _ _ => rfl, Nat.zero_le _⟩
  have hlater : ∀ {t}, InTraffic n [] t → n.Later t.night := fun ht =>
    ⟨ht.inTurn.conversing.sound, ht.inTurn.conversing.same⟩
  simp only [gather, leads_bind]
  refine hopen.weaken fun requests m hm => ?_
  have hnoted : m.sent = n.sent := hm.noted
  have hm := hm.toInTraffic
  split
  · have hend : ∀ {k}, n.Later k ∧ k.sent = m.sent → Leads finish k (fun _ k =>
        ∃ sent, k.sent = n.sent ++ textsOf sent ∧ WithinBounds n sent) anyhow := by
      rintro k ⟨hk, hmk⟩
      refine (sent_finish hk).imp fun _ l hkl => ⟨[], ?_, hnothing⟩
      rw [hkl, hmk, hnoted]
      simp [textsOf]
    split
    · rw [leads_bind]
      exact (sent_cancelAll hn (hlater hm)).imp fun _ _ hk => hend hk
    · exact hend ⟨hlater hm, rfl⟩
  · simp only [leads_bind, leads_get]
    have hlength : m.hosts.length = n.hosts.length := hm.inTurn.conversing.same.hosts
    refine (leads_exchange_traffic hn net hm hm.nodup
      (fun r hr => List.mem_map_of_mem hr) ?_).imp ?_
    · simp only [hlength]
      omega
    · rintro silences _ ⟨-, t, more, rfl, ht, hsent, hnoted'⟩
      refine (sent_endSilences hn (hlater ht) silences).imp ?_
      rintro _ k ⟨hk, htk⟩
      refine (sent_finish hk).imp fun _ l hkl => ⟨t.sent, ?_, ht.withinBounds⟩
      rw [hkl, htk, hnoted', hsent, hnoted]

end Planning

/-! ## All runs -/

/-- **Gathering ends.** Whatever hosts deliver and in whatever order, a host is sent the first
question at most once, and after it at most one request for sizes: when it has answered the first
question to the end without failing. A host whose disks are all sized by their history is sent
nothing. No delivery ends in a fault, and deliveries go on without end only if some exchange does.
The rounds that are granted to the hosts are as good as any larger number of them. -/
theorem gathering_ends {settings : Settings} {rotation : Rotation} {today : Int} {store : Store}
    {n₀ : Night} (hbegin : Night.begin settings disks rotation today = .ok n₀)
    (hprepare : prepareAll store n₀ = .ok () n) :
    (∀ s, Looping n s → WithinBounds n s.sent ∧
      ∀ h ∈ s.running, ∀ d : Delivery, d.speaks = true → ∃ next k,
        takeDelivery h d s.night = .ok next k ∧ ∀ r ∈ next, FollowsUp s h d r) ∧
    (∀ run said, Endless n run said →
      ∃ i, ∃ h ∈ (run i).running, ∀ j, i ≤ j → (said j).1 = h → (said j).2.isLast = false) ∧
    ∀ (σ : Type) (net : Network σ) (x : σ),
      (∀ requests m, firstRequests n = .ok requests m → ∀ extra,
        exchange net (2 * n.hosts.length + 1 + extra) x requests m =
          exchange net (2 * n.hosts.length + 1) x requests m) ∧
      ∀ cancelled, ∃ k sent, gather net x cancelled n = .ok () k ∧
        k.sent = n.sent ++ textsOf sent ∧ WithinBounds n sent := by
  obtain ⟨-, hn, hc⟩ := conversing_of_prepared hbegin hprepare
  have hopen : Leads firstRequests n _ never := leads_firstRequests_opening hbegin hprepare
  refine ⟨fun s hs => ?_, fun run said he => ?_, fun σ net x => ⟨fun requests m e extra => ?_,
    fun cancelled => ?_⟩⟩
  · have hs := hs.inTraffic hn hopen
    refine ⟨hs.withinBounds, fun h hrun d hd => ?_⟩
    obtain ⟨next, k, e, -, hfollows⟩ := (leads_delivery hn hs hrun hd).exists_ok
    exact ⟨next, k, e, hfollows⟩
  · exact he.exists_endless fun i => (he.looping i).inTraffic hn hopen
  · have hm := (hopen.ok e).toInTraffic
    have hrounds : Leads (exchange net (2 * n.hosts.length + 1) x requests) m _ never :=
      leads_exchange_traffic hn net hm hm.nodup (fun r hr => List.mem_map_of_mem hr)
        (Nat.lt_of_lt_of_le (Nat.lt_succ_self _) (Nat.le_add_right _ _))
    obtain ⟨silences, k, hok, hextra, -⟩ := hrounds.exists_ok
    rw [hextra extra, hok]
  · have hgather : Leads (gather net x cancelled) n (fun _ _ => True) never :=
      (leads_gather hn hc net x cancelled).imp fun _ _ _ => trivial
    obtain ⟨_, k, e, -⟩ := hgather.exists_ok
    obtain ⟨sent, hsent, hbounds⟩ := (sent_gather hn hopen net x cancelled).ok e
    exact ⟨k, sent, e, hsent, hbounds⟩

def historySized : Disk :=
  { Disk.plain "beta" "/srv" 10 default with sizeSources := [.server] }

/-- Of two hosts one answers the first question and is asked for its sizes; the other one is sent
nothing. -/
theorem gathering_ends_of_two : ∃ n₀ n s,
    Night.begin {} [Disk.plain "alpha" "/home" 10 default, historySized] default 0 = .ok n₀ ∧
    prepareAll {} n₀ = .ok () n ∧ Looping n s ∧ kindsTo s.sent 0 = [.probe, .sizes] ∧
    n.SizedAlone 1 ∧ kindsTo s.sent 1 = [] ∧ WithinBounds n s.sent := by
  obtain ⟨n₀, hbegin, hrun⟩ : ∃ n₀,
      Night.begin {} [Disk.plain "alpha" "/home" 10 default, historySized] default 0 = .ok n₀ ∧
      Leads (prepareAll {}) n₀ (fun _ n => (n.host 1).disks = [1] ∧
        (n.plan 1).disk.serverSized = true ∧ (n.plan 1).disk.clientSource = none ∧
        Leads firstRequests n (fun requests m => requests.map (·.host) = [0] ∧
          Leads (takeDelivery 0 (.packet ⟨.rep, ""⟩)) m (fun next _ =>
            kindsTo (requests ++ next.toList) 0 = [.probe, .sizes]) never) never) never :=
    ⟨_, rfl, by decide +kernel⟩
  obtain ⟨_, n, hprepare, hdisks, hserver, hclient, hrun⟩ := hrun.exists_ok
  obtain ⟨requests, m, hfirst, hrunning, hrun⟩ := hrun.exists_ok
  obtain ⟨next, k, htaken, hkinds⟩ := hrun.exists_ok
  have hlooping : Looping n _ := .delivered (.opened hfirst)
    ⟨by simp [hrunning], rfl, next, k, htaken, rfl⟩
  have halone : n.SizedAlone 1 := by
    intro id hid _
    rw [hdisks, List.mem_singleton] at hid
    exact hid ▸ ⟨hserver, hclient⟩
  obtain ⟨hbounds, -⟩ := (gathering_ends hbegin hprepare).1 _ hlooping
  exact ⟨n₀, n, _, hbegin, hprepare, hlooping, hkinds, halone, hbounds.alone 1 halone, hbounds⟩

end NightlyBackup
