import NightlyBackup.Proofs.Conversing

/-!
The conversations with the hosts, one operation at a time. Every operation is about one host
and takes each of its disks a step further; together the steps keep all records where they
should be.
-/

namespace NightlyBackup

open Night

variable {named : List Nat} {h g id : Nat} {n m k l : Night} {fail : Fault → Night → Prop}

/-- Only the host `h` and its disks differ between `m` and `k`. -/
structure Concerns (h : Nat) (m k : Night) : Prop where
  same : m.SameDisks k
  hosts : ∀ {g}, g ≠ h → k.host g = m.host g
  place : ∀ {id}, id ∉ (m.host h).disks → k.place id = m.place id

namespace Concerns

theorem refl (h : Nat) (m : Night) : Concerns h m m :=
  ⟨.refl m, fun _ => rfl, fun _ => rfl⟩

theorem trans (hmk : Concerns h m k) (hkl : Concerns h k l) : Concerns h m l where
  same := hmk.same.trans hkl.same
  hosts := fun hg => (hkl.hosts hg).trans (hmk.hosts hg)
  place := fun hid => (hkl.place (by rwa [hmk.same.disks])).trans (hmk.place hid)

theorem setHost {f : Host → Host} (hf : ∀ x, (f x).name = x.name ∧ (f x).disks = x.disks) :
    Concerns h m (m.setHost h f) :=
  ⟨(onlyAt_setHost 0 h hf).same, host_setHost_of_ne, fun _ => rfl⟩

end Concerns

/-- The disks whose exchanges were over in `m` are in `k` as they were. -/
def KeepsOver (m k : Night) : Prop :=
  ∀ id, (m.plan id).progress = .done → k.plan id = m.plan id ∧ k.place id = m.place id

namespace KeepsOver

theorem refl : KeepsOver m m := fun _ _ => ⟨rfl, rfl⟩

theorem trans (hmk : KeepsOver m k) (hkl : KeepsOver k l) : KeepsOver m l := by
  intro id ho
  obtain ⟨hplan, hplace⟩ := hmk id ho
  rw [← hplan] at ho
  obtain ⟨hplan', hplace'⟩ := hkl id ho
  exact ⟨hplan'.trans hplan, hplace'.trans hplace⟩

end KeepsOver

/-- Only the host `h` and those of its disks differ whose exchanges were not over. -/
structure Spares (h : Nat) (m k : Night) : Prop extends Concerns h m k where
  finished : KeepsOver m k

namespace Spares

theorem refl (h : Nat) (m : Night) : Spares h m m := ⟨.refl h m, .refl⟩

theorem trans (hmk : Spares h m k) (hkl : Spares h k l) : Spares h m l :=
  ⟨hmk.toConcerns.trans hkl.toConcerns, hmk.finished.trans hkl.finished⟩

theorem setHost {f : Host → Host} (hf : ∀ x, (f x).name = x.name ∧ (f x).disks = x.disks) :
    Spares h m (m.setHost h f) :=
  ⟨.setHost hf, .refl⟩

theorem setState (h : Nat) (m : Night) (state : HostState) :
    Spares h m (m.setHost h fun x => { x with state := state }) :=
  setHost fun _ => ⟨rfl, rfl⟩

theorem say (h : Nat) (m : Night) (e : Event) : Spares h m (m.say e) :=
  ⟨⟨(onlyAt_say 0 e).same, fun _ => rfl, fun _ => rfl⟩, .refl⟩

theorem visit {first : Option QueueName} (hid : id ∈ (m.host h).disks)
    (hv : Visit named first h id m k) : Spares h m k := by
  refine ⟨⟨hv.only.same, hv.hosts, fun hj => hv.only.place fun e => hj (e ▸ hid)⟩, ?_⟩
  intro j ho
  by_cases e : j = id
  · subst e
    exact hv.finished ho
  · exact ⟨hv.only.plan e, hv.only.place e⟩

end Spares

theorem Conversing.setHost {f : Host → Host} (hc : Conversing named n m)
    (hf : ∀ x, (f x).name = x.name ∧ (f x).disks = x.disks) :
    Conversing named n (m.setHost h f) :=
  ⟨hc.sound.setHost h f, hc.same.trans (onlyAt_setHost 0 h hf).same, hc.skipped, hc.standing⟩

theorem Conversing.setState (hc : Conversing named n m) (h : Nat) (state : HostState) :
    Conversing named n (m.setHost h fun x => { x with state := state }) :=
  hc.setHost fun _ => ⟨rfl, rfl⟩

theorem Conversing.say (hc : Conversing named n m) (e : Event) : Conversing named n (m.say e) :=
  ⟨⟨hc.sound.valid, hc.sound.registered⟩, hc.same.trans (onlyAt_say 0 e).same, hc.skipped,
    hc.standing⟩

/-- The records that a request names wait for the answer once it is written. -/
theorem Conversing.written (hc : Conversing named n m)
    (hw : ∀ id ∈ named, m.place id ≠ some .start) : Conversing [] n m := by
  refine ⟨hc.sound, hc.same, hc.skipped, fun id => ?_⟩
  rcases hc.standing id with ⟨hfirst, hin⟩ | haside
  · refine Or.inl ⟨hfirst, ?_⟩
    cases hin with
    | ready progress place => exact .ready progress place
    | named progress place mem => exact absurd place (hw id mem)
    | waiting progress place => exact .waiting progress place
    | answering progress place => exact .answering progress place
    | estimated progress place => exact .estimated progress place
    | failed progress place fault => exact .failed progress place fault
  · exact Or.inr haside

namespace Planning

/-- What is done about the disks of a host one after the other: each visit finds its disk
where it was before the first, with `P`, and leaves it with `Q`. -/
theorem leads_mapM_disks {β : Type} {visit : Nat → Planning β} {ids : List Nat}
    {I : Night → Prop} {P : Nat → DiskPlan → Option QueueName → Prop}
    {Q : Nat → β → DiskPlan → Option QueueName → Prop} (hn : n.Hosted)
    (hids : ids = (m.host h).disks)
    (step : ∀ id ∈ ids, ∀ k, Conversing named n k → I k → P id (k.plan id) (k.place id) →
      Leads (visit id) k (fun b l =>
        Visit named (n.place id) h id k l ∧ I l ∧ Q id b (l.plan id) (l.place id)) fail)
    (hc : Conversing named n m) (hi : I m) (hp : ∀ id ∈ ids, P id (m.plan id) (m.place id)) :
    Leads (ids.mapM visit) m (fun bs k => Conversing named n k ∧ Spares h m k ∧ I k ∧
      List.Forall₂ (fun id b => Q id b (k.plan id) (k.place id)) ids bs) fail := by
  have hd : ids.Nodup := by
    rw [hids]
    exact (hc.same.hosted hn).nodup h
  refine (leads_mapM_each
    (I := fun k => Conversing named n k ∧ Spares h m k ∧ I k)
    (P := fun id k => P id (k.plan id) (k.place id))
    (Q := fun id b k => Q id b (k.plan id) (k.place id))
    hd ?_ ⟨hc, .refl h m, hi⟩ hp).imp ?_
  · rintro id hid k ⟨hk, hm, hik⟩ hpk
    apply (step id hid k hk hik hpk).imp
    rintro b l ⟨hv, hil, hq⟩
    refine ⟨⟨hk.visit hv, hm.trans (.visit ?_ hv), hil⟩, hq, ?_⟩
    · rw [hm.same.disks, ← hids]
      exact hid
    · intro j _ hj
      rw [hv.only.plan hj, hv.only.place hj]
      exact ⟨fun h => h, fun _ h => h⟩
  · rintro bs k ⟨⟨hk, hm, hik⟩, hall⟩
    exact ⟨hk, hm, hik, hall⟩

theorem leads_forM_disks {visit : Nat → Planning Unit} {ids : List Nat}
    {I : Night → Prop} {P Q : Nat → DiskPlan → Option QueueName → Prop} (hn : n.Hosted)
    (hids : ids = (m.host h).disks)
    (step : ∀ id ∈ ids, ∀ k, Conversing named n k → I k → P id (k.plan id) (k.place id) →
      Leads (visit id) k (fun _ l =>
        Visit named (n.place id) h id k l ∧ I l ∧ Q id (l.plan id) (l.place id)) fail)
    (hc : Conversing named n m) (hi : I m) (hp : ∀ id ∈ ids, P id (m.plan id) (m.place id)) :
    Leads (ids.forM visit) m (fun _ k => Conversing named n k ∧ Spares h m k ∧ I k ∧
      ∀ id ∈ ids, Q id (k.plan id) (k.place id)) fail := by
  refine leads_forM_iff_mapM.mpr ((leads_mapM_disks (Q := fun id _ => Q id) hn hids step hc hi
    hp).imp ?_)
  rintro bs k ⟨hk, hm, hik, hall⟩
  refine ⟨hk, hm, hik, fun id hid => ?_⟩
  obtain ⟨_, _, hq⟩ := exists_of_forall₂ hall hid
  exact hq

end Planning

/-! ## How far a host has come -/

def Idle (m : Night) (h : Nat) : Prop := ∀ id ∈ (m.host h).disks, Resolved m id

def Unasked (m : Night) (h : Nat) : Prop := ∀ id ∈ (m.host h).disks, ¬Awaits m id

def Asked (m : Night) (h : Nat) : Prop := ∀ id ∈ (m.host h).disks, m.place id ≠ some .start

def HostDone (m : Night) (h : Nat) : Prop := h < m.hosts.length → (m.host h).state = .done

theorem HostDone.not_active (hd : HostDone m h) : (m.host h).state ≠ .active := by
  by_cases hh : h < m.hosts.length
  · rw [hd hh]
    decide
  · rw [host_of_le (Nat.le_of_not_lt hh)]
    decide

theorem hostDone_setHost (m : Night) (h : Nat) :
    HostDone (m.setHost h fun host => { host with state := .done }) h := by
  intro hh
  rw [length_setHost] at hh
  rw [host_setHost_self hh]

structure AtRest (m : Night) (h : Nat) : Prop where
  unasked : Unasked m h
  state : (m.host h).state ≠ .active
  done : (m.host h).state = .done → Idle m h

structure InTalk (m : Night) (h : Nat) : Prop where
  asked : Unasked m h ∨ Asked m h
  done : (m.host h).state = .done → Idle m h

theorem Resolved.not_awaits (hr : Resolved m id) : ¬Awaits m id := by
  unfold Resolved Awaits at *
  rcases hr with e | e | e <;> simp [e]

theorem Resolved.not_start (hr : Resolved m id) : m.place id ≠ some .start := by
  unfold Resolved at hr
  rcases hr with e | e | e <;> simp [e]

/-- A record that is neither to be asked about nor awaits an answer is resolved. -/
theorem Conversing.resolved (hc : Conversing [] n m) (hs : m.place id ≠ some .start)
    (ha : ¬Awaits m id) : Resolved m id := by
  rcases hc.standing id with ⟨-, hin⟩ | haside
  · cases hin with
    | ready progress place => exact absurd place hs
    | named progress place mem => exact absurd place hs
    | waiting progress place => exact absurd (Or.inl place) ha
    | answering progress place => exact absurd (Or.inr place) ha
    | estimated progress place => exact Or.inr (Or.inl place)
    | failed progress place fault => exact Or.inr (Or.inr place)
  · rw [Resolved, haside.place]
    rcases haside.why with e | ⟨e, -⟩
    · exact Or.inl e
    · exact Or.inr (Or.inr e)

theorem Conversing.idle (hc : Conversing [] n m) (hu : Unasked m h) (ha : Asked m h) :
    Idle m h :=
  fun id hid => hc.resolved (ha id hid) (hu id hid)

theorem Idle.unasked (hi : Idle m h) : Unasked m h := fun id hid => (hi id hid).not_awaits

theorem Idle.atRest (hi : Idle m h) (hs : (m.host h).state ≠ .active) : AtRest m h :=
  ⟨hi.unasked, hs, fun _ => hi⟩

theorem Idle.inTalk (hi : Idle m h) : InTalk m h := ⟨Or.inl hi.unasked, fun _ => hi⟩

theorem AtRest.inTalk (hr : AtRest m h) : InTalk m h := ⟨Or.inl hr.unasked, hr.done⟩

theorem Unasked.settles (hu : Unasked m h) (hm : Concerns h m k)
    (hs : ∀ id ∈ (m.host h).disks, Settles m k id) : Unasked k h := by
  intro id hid
  rw [hm.same.disks] at hid
  rcases hs id hid with e | e
  · unfold Awaits
    rw [e]
    exact hu id hid
  · exact Resolved.not_awaits (Or.inr e)

/-! ## Requests -/

def Night.requested (m : Night) (h : Nat) (features : FeatureSet) : List Nat :=
  (m.host h).disks.filter fun id =>
    m.place id = some .start ∧ (m.plan id).requestLines features ≠ []

theorem Night.mem_requested {features : FeatureSet} : id ∈ m.requested h features ↔
    id ∈ (m.host h).disks ∧ m.place id = some .start ∧
      (m.plan id).requestLines features ≠ [] := by
  simp [requested]

def Night.sizesRequest (m : Night) (h : Nat) (features : FeatureSet) : Option HostRequest :=
  let lines := (m.requested h features).flatMap fun id => (m.plan id).requestLines features
  if lines = [] then none
  else some
    { host := h
      hostName := (m.host h).name
      kind := .sizes
      body := Planning.requestHead m h features ++ String.join lines
      timeout := m.settings.sizesTimeout lines.length }

/-- A host is sent a request if and only if one of its disks can be asked about. -/
theorem Night.sizesRequest_eq_none {features : FeatureSet} :
    m.sizesRequest h features = none ↔ m.requested h features = [] := by
  simp only [sizesRequest, List.flatMap_eq_nil_iff, ite_eq_left_iff, reduceCtorEq, imp_false,
    not_not]
  refine ⟨fun hlines => List.eq_nil_iff_forall_not_mem.mpr fun id hid => ?_, fun hnone => ?_⟩
  · exact (mem_requested.mp hid).2.2 (hlines id hid)
  · simp [hnone]

section
variable {features : FeatureSet}

/-- No record is left to be asked about. -/
theorem Night.placeAsked_ne_start : m.placeAsked features id ≠ some .start := by
  unfold placeAsked DiskPlan.afterRequest
  split
  · split <;> split <;> simp
  · assumption

/-- A disk that is named in a request awaits the answer. -/
theorem Night.placeAsked_of_requested (hid : id ∈ m.requested h features) :
    m.placeAsked features id = some .waiting ∨
      m.placeAsked features id = some .partialEstimate := by
  obtain ⟨-, hp, hlines⟩ := mem_requested.mp hid
  rw [placeAsked, if_pos hp, DiskPlan.afterRequest, if_neg hlines]
  split
  · exact Or.inr rfl
  · exact Or.inl rfl

/-- Other disks stay where they are, or they are estimated or fail. -/
theorem Night.settles_of_not_requested (hid : id ∈ (m.host h).disks)
    (hnot : id ∉ m.requested h features) (hk : k.place id = m.placeAsked features id) :
    Settles m k id := by
  rw [Settles, hk, placeAsked]
  split
  · rename_i hp
    have hlines : (m.plan id).requestLines features = [] := by
      by_contra hne
      exact hnot (mem_requested.mpr ⟨hid, hp, hne⟩)
    rw [DiskPlan.afterRequest, if_pos hlines]
    split <;> simp
  · exact Or.inl rfl

/-- What is asked does not depend on what the history of the disks brings. -/
theorem Night.requested_eq (hdisks : (k.host h).disks = (m.host h).disks)
    (hlines : ∀ id ∈ (m.host h).disks, KeepsLines m k id) :
    k.requested h features = m.requested h features := by
  rw [requested, requested, hdisks]
  refine List.filter_congr fun id hid => ?_
  obtain ⟨hsame, hplace⟩ := hlines id hid features
  by_cases hne : (m.plan id).requestLines features = []
  · simp [hsame, hne]
  · rw [hsame, hplace hne]

theorem Night.sizesRequest_eq (hhost : k.host h = m.host h) (hsettings : k.settings = m.settings)
    (hlines : ∀ id ∈ (m.host h).disks, KeepsLines m k id) :
    k.sizesRequest h features = m.sizesRequest h features := by
  have hhead : Planning.requestHead k h features = Planning.requestHead m h features := by
    unfold Planning.requestHead
    rw [hhost, hsettings]
  have hall : (m.requested h features).flatMap (fun id => (k.plan id).requestLines features) =
      (m.requested h features).flatMap fun id => (m.plan id).requestLines features := by
    refine List.flatMap_congr fun id hid => ?_
    exact (hlines id (mem_requested.mp hid).1 features).1
  rw [sizesRequest, sizesRequest, requested_eq (congrArg Host.disks hhost) hlines, hall, hhead,
    hhost, hsettings]

end

namespace Planning

theorem leads_expectAll (hn : n.Hosted) (hc : Conversing [] n m) :
    Leads ((m.host h).disks.forM expectSizes) m (fun _ k => Conversing [] n k ∧ Spares h m k ∧
      k.hosts = m.hosts ∧ ∀ id ∈ (m.host h).disks, Settles m k id ∧ KeepsLines m k id ∧
        ∀ features, k.placeAsked features id = m.placeAsked features id) fail := by
  refine leads_forM_disks (I := fun k => k.hosts = m.hosts)
    (P := fun id p q => p = m.plan id ∧ q = m.place id)
    (Q := fun id p q => (q = m.place id ∨ q = some .estimated ∨ q = some .failed) ∧
      (∀ features, p.requestLines features = (m.plan id).requestLines features ∧
        ((m.plan id).requestLines features ≠ [] → q = m.place id)) ∧
      ∀ features, (if q = some .start then some (p.afterRequest features) else q) =
        m.placeAsked features id)
    hn rfl ?_ hc rfl fun _ _ => ⟨rfl, rfl⟩
  rintro id - k hk hhosts ⟨hplan, hplace⟩
  apply (leads_expectSizes (h := h) hk.sound (hk.standing id)).imp
  rintro _ l ⟨hv, hs, hl, hlines, hasked⟩
  refine ⟨hv, hl.trans hhosts, ?_⟩
  rw [Settles, hplace] at hs
  rw [KeepsLines, hplan, hplace] at hlines
  simp only [placeAsked, hplan, hplace] at hasked
  exact ⟨hs, hlines, hasked⟩

/-- The lines about all disks that a request names follow one another. -/
theorem flatten_lines (m : Night) (h : Nat) (features : FeatureSet) :
    ((m.host h).disks.map fun id =>
      if m.place id = some .start then (m.plan id).requestLines features else []).flatten =
    (m.requested h features).flatMap fun id => (m.plan id).requestLines features := by
  rw [requested]
  induction (m.host h).disks with
  | nil => rfl
  | cons id ids ih =>
    rw [List.map_cons, List.flatten_cons, ih, List.filter_cons]
    by_cases hp : m.place id = some .start
    · by_cases hlines : (m.plan id).requestLines features = []
      · simp [hp, hlines]
      · simp [hp, hlines]
    · simp [hp]

/-- The disks of a host are asked about: each of them goes where it should, and the request is
about those that can be asked about. -/
theorem leads_requestSizes (hn : n.Hosted) (hc : Conversing [] n m) (features : FeatureSet) :
    Leads (requestSizes h features) m (fun request k =>
      Conversing [] n k ∧ Spares h m k ∧
        (∀ id ∈ (m.host h).disks, k.place id = m.placeAsked features id) ∧
        (request ≠ none → (k.host h).state ≠ .done) ∧
        request = m.sizesRequest h features) fail := by
  have hnamed : Conversing (m.host h).disks n m :=
    ⟨hc.sound, hc.same, hc.skipped, fun id => (hc.standing id).mono (by simp)⟩
  let lines (id : Nat) : List String :=
    if m.place id = some .start then (m.plan id).requestLines features else []
  simp only [requestSizes, leads_bind, leads_get]
  refine (leads_mapM_disks (I := fun _ => True)
    (P := fun id p q => Standing [] (n.place id) id p q ∧ p = m.plan id ∧ q = m.place id)
    (Q := fun id ls p q => lines id = ls ∧
      ((q ≠ some .start ∧ q = m.placeAsked features id) ∨
        (ls ≠ [] ∧ q = some .start ∧ p.progress = .active ∧
          m.placeAsked features id = some .waiting)))
    hn rfl ?_ hnamed trivial fun id _ => ⟨hc.standing id, rfl, rfl⟩).imp ?_
  · rintro id hid k hk - ⟨hst, hplan, hplace⟩
    apply (leads_askDisk (h := h) features hk.sound hid hst).imp
    rintro ls l ⟨hv, hls, hq⟩
    rw [hplan, hplace] at hls
    rw [placeAsked, hplan, hplace] at hq
    exact ⟨hv, trivial, hls.symm, hq⟩
  · rintro answers k ⟨hk, hm, -, hall⟩
    obtain rfl : (m.host h).disks.map lines = answers :=
      List.forall₂_eq_eq_eq ▸ List.forall₂_map_left_iff.mpr (hall.imp fun _ _ hq => hq.1)
    have heach : ∀ id ∈ (m.host h).disks,
        (k.place id ≠ some .start ∧ k.place id = m.placeAsked features id) ∨
          (lines id ≠ [] ∧ k.place id = some .start ∧ (k.plan id).progress = .active ∧
            m.placeAsked features id = some .waiting) := by
      intro id hid
      obtain ⟨_, -, rfl, hq⟩ := exists_of_forall₂ hall hid
      exact hq
    have hrequest : ((m.host h).disks.map lines).flatten =
        (m.requested h features).flatMap fun id => (m.plan id).requestLines features :=
      flatten_lines m h features
    split
    · rename_i hempty
      rw [List.isEmpty_iff] at hempty
      have hleft : ∀ id ∈ (m.host h).disks,
          k.place id ≠ some .start ∧ k.place id = m.placeAsked features id := by
        intro id hid
        refine (heach id hid).resolve_right fun hasked => hasked.1 ?_
        exact List.flatten_eq_nil_iff.mp hempty _ (List.mem_map_of_mem hid)
      simp only [setHost, leads_bind, leads_modify, leads_pure]
      refine ⟨(hk.written fun id hid => (hleft id hid).1).setState h .done,
        hm.trans (.setState h k .done), fun id hid => (hleft id hid).2, by simp, ?_⟩
      rw [sizesRequest, ← hrequest, if_pos hempty]
    · rename_i hsome
      rw [List.isEmpty_iff] at hsome
      simp only [leads_bind]
      refine (leads_forM_disks (I := fun _ => True)
        (P := fun id p q => p = k.plan id ∧ q = k.place id)
        (Q := fun id p q => q = if k.place id = some .start then some .waiting else k.place id)
        hn (hm.same.disks h).symm ?_ hk trivial fun _ _ => ⟨rfl, rfl⟩).imp ?_
      · rintro id hid l hl - ⟨hplan, hplace⟩
        have hactive : l.place id = some .start → (l.plan id).progress = .active := by
          rw [hplan, hplace]
          intro hp
          rcases heach id hid with ⟨hleft, -⟩ | ⟨-, -, hactive, -⟩
          · exact absurd hp hleft
          · exact hactive
        apply (leads_awaitAnswer (h := h) hl.sound (hl.standing id) hactive).imp
        rintro _ l' ⟨hv, hq⟩
        rw [hplace] at hq
        exact ⟨hv, trivial, hq⟩
      · rintro _ l ⟨hl, hkl, -, hq⟩
        have hplaces : ∀ id ∈ (m.host h).disks, l.place id = m.placeAsked features id := by
          intro id hid
          rw [hq id hid]
          rcases heach id hid with ⟨hleft, hplace⟩ | ⟨-, hstart, -, hwaits⟩
          · rw [if_neg hleft, hplace]
          · rw [if_pos hstart, hwaits]
        have hleft : ∀ id ∈ (m.host h).disks, l.place id ≠ some .start := fun id hid =>
          hplaces id hid ▸ placeAsked_ne_start
        simp only [setHost, leads_modify, leads_pure]
        refine ⟨(hl.written hleft).setState h .active, (hm.trans hkl).trans (.setState h l .active),
          hplaces, fun _ => state_setHost (P := (· ≠ _)) l h (by decide) (by decide), ?_⟩
        rw [sizesRequest, ← hrequest, if_neg hsome]

/-- The request `r` is sent to the host `h`: the first question if its features are unknown, or
else one for the sizes of all disks that are left to be asked about. -/
structure Sends (h : Nat) (m k : Night) (r : HostRequest) : Prop where
  host : r.host = h
  name : r.hostName = (m.host h).name
  unasked : ¬Asked m h
  first : (m.host h).features = none → r.kind = .probe
  second : (m.host h).features ≠ none → r.kind = .sizes ∧ Asked k h

/-- A host at rest that is sent no request has no open disk. -/
theorem leads_request (hn : n.Hosted) (hc : Conversing [] n m) :
    Leads (request h) m (fun request k => Conversing [] n k ∧ Spares h m k ∧
      (AtRest m h → (request = none → Idle k h) ∧ (request ≠ none → InTalk k h)) ∧
      ∀ r ∈ request, Sends h m k r) fail := by
  simp only [Planning.request, leads_bind, leads_get]
  split
  · rename_i hstate
    refine ⟨hc, .refl h m, fun hr => ⟨fun _ => hr.done ?_, by simp⟩, by simp⟩
    cases e : (m.host h).state with
    | ready => exact absurd e hstate
    | active => exact absurd e hr.state
    | done => rfl
  · simp only [leads_bind, leads_get]
    apply (leads_expectAll hn hc).imp
    rintro _ k ⟨hk, hm, hhosts, hall⟩
    have hs : ∀ id ∈ (m.host h).disks, Settles m k id := fun id hid => (hall id hid).1
    have hhost : k.host h = m.host h := by simp only [Night.host, hhosts]
    split
    · rename_i hleft
      have hml := hm.trans (.setState h k .done)
      have hl := hk.setState h .done
      simp only [setHost, leads_bind, leads_modify, leads_pure]
      refine ⟨hl, hml, fun hr => ⟨fun _ => hl.idle ?_ ?_, by simp⟩, by simp⟩
      · exact hr.unasked.settles hml.toConcerns hs
      · intro id hid
        rw [hml.same.disks, ← hm.same.disks] at hid
        have := List.all_eq_true.mp hleft id hid
        exact of_decide_eq_true this
    · rename_i hleft
      -- The sizes that the history brings put no disk on the start queue.
      have hunasked : ¬Asked m h := by
        intro ha
        refine hleft (List.all_eq_true.mpr fun id hid => decide_eq_true ?_)
        rw [hhost] at hid
        rcases hs id hid with e | e | e <;> rw [Night.place] at e <;> simp only [e, ne_eq]
        · exact ha id hid
        · simp
        · simp
      split
      · rename_i hnone
        have hml := hm.trans (.setState h k .active)
        simp only [setHost, leads_bind, leads_modify, leads_pure]
        refine ⟨hk.setState h .active, hml, fun hr => ⟨by simp, fun _ => ⟨Or.inl ?_, ?_⟩⟩, ?_⟩
        · exact hr.unasked.settles hml.toConcerns hs
        · exact fun hd => absurd hd (state_setHost (P := (· ≠ _)) k h (by decide) (by decide))
        · rintro r ⟨⟩
          exact ⟨rfl, hm.same.hostName h, hunasked, fun _ => rfl,
            fun hf => absurd (hhost ▸ hnone) hf⟩
      · rename_i features hsome
        apply (leads_requestSizes hn hk _).imp
        rintro request l ⟨hl, hkl, hplaces, hstate, hrequest⟩
        have hml := hm.trans hkl
        have ha : Asked l h := fun id hid => by
          rw [hkl.same.disks] at hid
          exact hplaces id hid ▸ placeAsked_ne_start
        refine ⟨hl, hml, fun hr => ⟨fun e => hl.idle ?_ ha, fun e => ⟨Or.inr ha, ?_⟩⟩,
          fun r hr => ?_⟩
        · have hnone := sizesRequest_eq_none.mp (hrequest.symm.trans e)
          refine (hr.unasked.settles hm.toConcerns hs).settles hkl.toConcerns fun id hid => ?_
          exact settles_of_not_requested hid (by simp [hnone]) (hplaces id hid)
        · exact fun hd => absurd hd (hstate e)
        · obtain ⟨-, hr⟩ := Option.ite_none_left_eq_some.mp (hrequest ▸ hr)
          obtain rfl := Option.some.inj hr
          refine ⟨rfl, hm.same.hostName h, hunasked, fun hf => ?_, fun _ => ⟨rfl, ha⟩⟩
          rw [← hhost, hsome] at hf
          cases hf

/-! ## A host that fails -/

/-- A host that failed is done, and none of its disks stays open. -/
theorem leads_hostFailed (hn : n.Hosted) (hc : Conversing [] n m) (words : String) :
    Leads (hostFailed h words) m (fun _ k => Conversing [] n k ∧ Spares h m k ∧
      Idle k h ∧ HostDone k h) fail := by
  simp only [hostFailed, leads_bind, leads_get]
  refine (leads_mapM_disks (I := fun _ => True) (P := fun _ _ _ => True)
    (Q := fun _ _ _ q => q = none ∨ q = some .estimated ∨ q = some .failed)
    hn rfl ?_ hc trivial fun _ _ => trivial).imp ?_
  · intro id _ k hk _ _
    apply (leads_resolveFailed (h := h) words hk.sound (hk.standing id)).imp
    rintro _ l ⟨hv, hr⟩
    exact ⟨hv, trivial, hr⟩
  · rintro wasOpen k ⟨hk, hm, -, hr⟩
    have hend : ∀ l, Conversing [] n l → Spares h m l → (∀ id, l.place id = k.place id) →
        Leads (setHost h fun host => { host with state := .done }) l (fun _ k =>
          Conversing [] n k ∧ Spares h m k ∧ Idle k h ∧ HostDone k h) fail := by
      intro l hl hml hp
      have hml := hml.trans (.setState h l .done)
      simp only [setHost, leads_modify]
      refine ⟨hl.setState h .done, hml, fun id hid => ?_, hostDone_setHost l h⟩
      rw [hml.same.disks] at hid
      obtain ⟨_, _, hq⟩ := exists_of_forall₂ hr hid
      rw [Resolved, place_setHost, hp]
      exact hq
    split
    · simp only [warn, say, leads_bind, leads_modify]
      exact hend _ (hk.say _) (hm.trans (.say h k _)) fun _ => rfl
    · exact hend k hk hm fun _ => rfl

end Planning

end NightlyBackup
