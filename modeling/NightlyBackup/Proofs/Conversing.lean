import NightlyBackup.Exchange.Conversation
import NightlyBackup.Proofs.Becoming

/-!
The conversations with the hosts, one disk at a time. A record that is to be asked about
stands on the queue that the progress of its exchange says, and whatever is done about it
moves it along both together. A record that is not to be asked about stays where
preparation has put it.
-/

namespace NightlyBackup

open Night

/-- Queue and progress of a record agree. The records in `named` are named in a request
that is being written. -/
inductive InStep (named : List Nat) (id : Nat) (p : DiskPlan) (q : Option QueueName) : Prop
  | ready (progress : p.progress = .ready) (place : q = some .start)
  | named (progress : p.progress = .active) (place : q = some .start) (mem : id ∈ named)
  | waiting (progress : p.progress = .active) (place : q = some .waiting)
  | answering (progress : p.progress = .partlyDone) (place : q = some .partialEstimate)
  | estimated (progress : p.progress = .done) (place : q = some .estimated)
  | failed (progress : p.progress = .done) (place : q = some .failed) (fault : p.fault.isSome)

structure Aside (first : Option QueueName) (p : DiskPlan) (q : Option QueueName) : Prop where
  progress : p.progress = .ready
  place : q = first
  why : first = none ∨ (first = some .failed ∧ p.fault.isSome)

/-- Where the record `id` stands in the conversations that began with it on `first`. -/
def Standing (named : List Nat) (first : Option QueueName) (id : Nat) (p : DiskPlan)
    (q : Option QueueName) : Prop :=
  (first = some .start ∧ InStep named id p q) ∨ Aside first p q

/-- A night in the conversations that began with `n`. -/
structure Conversing (named : List Nat) (n m : Night) : Prop where
  sound : m.Sound
  same : n.SameDisks m
  skipped : m.skipped = n.skipped
  standing : ∀ id, Standing named (n.place id) id (m.plan id) (m.place id)

section
variable {named : List Nat} {first q : Option QueueName} {id : Nat} {p p' : DiskPlan}

theorem InStep.mono {more : List Nat} (h : InStep named id p q) (hsub : id ∈ named → id ∈ more) :
    InStep more id p q := by
  cases h with
  | ready progress place => exact .ready progress place
  | named progress place mem => exact .named progress place (hsub mem)
  | waiting progress place => exact .waiting progress place
  | answering progress place => exact .answering progress place
  | estimated progress place => exact .estimated progress place
  | failed progress place fault => exact .failed progress place fault

theorem Standing.mono {more : List Nat} (h : Standing named first id p q)
    (hsub : id ∈ named → id ∈ more) : Standing more first id p q :=
  h.imp_left fun h => ⟨h.1, h.2.mono hsub⟩

/-- A plan in which nothing but sizes, answers and the fault change stands where it stood. -/
theorem Standing.congr (h : Standing named first id p q) (hp : p'.progress = p.progress)
    (hf : p.fault.isSome → p'.fault.isSome) : Standing named first id p' q := by
  rcases h with ⟨hfirst, h⟩ | h
  · refine Or.inl ⟨hfirst, ?_⟩
    cases h with
    | ready progress place => exact .ready (hp.trans progress) place
    | named progress place mem => exact .named (hp.trans progress) place mem
    | waiting progress place => exact .waiting (hp.trans progress) place
    | answering progress place => exact .answering (hp.trans progress) place
    | estimated progress place => exact .estimated (hp.trans progress) place
    | failed progress place fault => exact .failed (hp.trans progress) place (hf fault)
  · exact Or.inr ⟨hp.trans h.progress, h.place, h.why.imp_right fun e => ⟨e.1, hf e.2⟩⟩

/-- A record that still has to be moved takes part. -/
theorem Standing.of_open {name : QueueName} (h : Standing named first id p (some name))
    (hname : name ≠ .failed) : first = some .start ∧ InStep named id p (some name) := by
  rcases h with h | h
  · exact h
  · rcases h.why with e | ⟨e, -⟩
    · exact absurd (h.place.trans e) (by simp)
    · exact absurd (Option.some.inj (h.place.trans e)) hname

/-- The exchange about a record that still has to be moved is not over. -/
theorem Standing.not_over {name : QueueName} (h : Standing named first id p (some name))
    (hname : name = .start ∨ name = .waiting ∨ name = .partialEstimate) : p.progress ≠ .done := by
  intro hp
  rcases h with ⟨-, h⟩ | h
  · cases h with
    | ready progress place => cases hp.symm.trans progress
    | named progress place mem => cases hp.symm.trans progress
    | waiting progress place => cases hp.symm.trans progress
    | answering progress place => cases hp.symm.trans progress
    | estimated progress place => cases place; simp at hname
    | failed progress place fault => cases place; simp at hname
  · cases hp.symm.trans h.progress

/-- A record on the start queue takes part, and is there to be asked about. -/
theorem Standing.of_start (h : Standing [] first id p (some .start)) :
    first = some .start ∧ p.progress = .ready := by
  obtain ⟨hfirst, h⟩ := h.of_open (by simp)
  refine ⟨hfirst, ?_⟩
  cases h with
  | ready progress place => exact progress
  | named progress place mem => cases mem
  | waiting progress place => cases place
  | answering progress place => cases place
  | estimated progress place => cases place
  | failed progress place fault => cases place

end

/-! ## One disk -/

/-- After something was done about the record `id`, which is of the host `h`, it stands as
it should; the other records and hosts are as they were, and so is the record if its exchange
was over. -/
structure Visit (named : List Nat) (first : Option QueueName) (h id : Nat) (m k : Night) :
    Prop where
  sound : k.Sound
  only : OnlyAt id m k
  skipped : k.skipped = m.skipped
  hosts : ∀ {g}, g ≠ h → k.host g = m.host g
  standing : Standing named first id (k.plan id) (k.place id)
  finished : (m.plan id).progress = .done → k.plan id = m.plan id ∧ k.place id = m.place id

def Settles (m k : Night) (id : Nat) : Prop :=
  k.place id = m.place id ∨ k.place id = some .estimated ∨ k.place id = some .failed

/-- As much can be asked about a record as before, and if anything can, it is where it was. -/
def KeepsLines (m k : Night) (id : Nat) : Prop := ∀ features,
  (k.plan id).requestLines features = (m.plan id).requestLines features ∧
    ((m.plan id).requestLines features ≠ [] → k.place id = m.place id)

/-- The queue to which a disk on the start queue goes when its host is asked. -/
def DiskPlan.afterRequest (p : DiskPlan) (features : FeatureSet) : QueueName :=
  if p.requestLines features = [] then
    if p.disk.serverSized then .estimated else .failed
  else if p.disk.serverSized then .partialEstimate else .waiting

/-- The queue on which a record is once its host has been asked. -/
def Night.placeAsked (m : Night) (features : FeatureSet) (id : Nat) : Option QueueName :=
  if m.place id = some .start then some ((m.plan id).afterRequest features) else m.place id

def Resolved (m : Night) (id : Nat) : Prop :=
  m.place id = none ∨ m.place id = some .estimated ∨ m.place id = some .failed

def Awaits (m : Night) (id : Nat) : Prop :=
  m.place id = some .waiting ∨ m.place id = some .partialEstimate

/-- After a packet a disk is where it was, unless it awaited one. Then it still does if more
is to follow, and is estimated or has failed otherwise. -/
def Settled (kind : PacketKind) (h : Nat) (m k : Night) (id : Nat) : Prop :=
  (¬Awaits m id ∧ k.place id = m.place id ∧ k.host h = m.host h) ∨
    (Awaits m id ∧ if kind = .prep then Awaits k id ∧ k.host h = m.host h
      else Resolved k id ∧ (k.host h).state ≠ .active)

section
variable {named : List Nat} {first q : Option QueueName} {h id : Nat} {p : DiskPlan}
  {n m k : Night} {fail : Fault → Night → Prop}

theorem Night.Becomes.visit (hb : Becomes id p q m k) (ho : (m.plan id).progress ≠ .done)
    (hs : Standing named first id p q) : Visit named first h id m k :=
  ⟨hb.sound, hb.only, hb.alike.skipped, fun {g} _ => by simp only [host, hb.alike.hosts],
    by rwa [hb.plan, hb.place], fun h => absurd h ho⟩

/-- The host may change while something is done about its disk. -/
theorem Night.Becomes.visitAfter {p' : DiskPlan} {q' : Option QueueName} {f : Host → Host}
    (hb : Becomes id p q m n) (ho : (m.plan id).progress ≠ .done)
    (hk : Becomes id p' q' (n.setHost h f) k)
    (hf : ∀ x, (f x).name = x.name ∧ (f x).disks = x.disks)
    (hs : Standing named first id p' q') : Visit named first h id m k := by
  refine ⟨hk.sound, hb.only.trans ((onlyAt_setHost id h hf).trans hk.only),
    hk.alike.skipped.trans hb.alike.skipped, fun {g} hg => ?_, by rwa [hk.plan, hk.place],
    fun h => absurd h ho⟩
  have hhost : k.host g = (n.setHost h f).host g := by simp only [host, hk.alike.hosts]
  rw [hhost, host_setHost_of_ne hg]
  simp only [host, hb.alike.hosts]

theorem Visit.refl (hs : m.Sound) (hst : Standing named first id (m.plan id) (m.place id)) :
    Visit named first h id m m :=
  ⟨hs, ⟨.refl m, fun _ => rfl, fun _ => rfl, fun _ => rfl⟩, rfl, fun _ => rfl, hst,
    fun _ => ⟨rfl, rfl⟩⟩

/-- The other records stand as they stood. -/
theorem Conversing.visit (hc : Conversing named n m)
    (hv : Visit named (n.place id) h id m k) : Conversing named n k := by
  refine ⟨hv.sound, hc.same.trans hv.only.same, hv.skipped.trans hc.skipped, ?_⟩
  exact hv.only.each (P := fun j p q => Standing named (n.place j) j p q) hv.standing
    fun j _ => hc.standing j

namespace Planning

theorem requestLines_fillExpected (p : DiskPlan) (tapeLength : Nat) (features : FeatureSet) :
    (p.fillExpected tapeLength).requestLines features = p.requestLines features := by
  simp only [DiskPlan.requestLines, DiskPlan.fillExpected, List.map_map]
  rfl

theorem leads_expectSizes (hs : m.Sound)
    (hst : Standing [] first id (m.plan id) (m.place id)) :
    Leads (expectSizes id) m (fun _ k =>
      Visit [] first h id m k ∧ Settles m k id ∧ k.hosts = m.hosts ∧ KeepsLines m k id ∧
        ∀ features, k.placeAsked features id = m.placeAsked features id) fail := by
  simp only [expectSizes, leads_bind, leads_get]
  split
  · rename_i hawaits
    simp only [awaitsExpected, Bool.and_eq_true, decide_eq_true_eq] at hawaits
    have hp : m.place id = some .start := hawaits.1.1.1
    have hsized : (m.plan id).disk.serverSized = true := hawaits.1.2
    rw [hp] at hst
    obtain ⟨hfirst, hready⟩ := hst.of_start
    have ho := hst.not_over (Or.inl rfl)
    have hb := Becomes.refl hs (hs.lt_of_place hp)
    rw [hp] at hb
    rw [leads_bind]
    refine leads_setPlan hb (fun _ => ⟨rfl, rfl⟩) fun k hk => ?_
    rw [leads_bind, leads_reckon]
    replace hk := hk.reckon (m.plan id).expectedOverflow?
    split
    · rename_i hnone
      have hnothing : ∀ features, (m.plan id).requestLines features = [] := fun features => by
        rw [DiskPlan.requestLines, Option.isNone_iff_eq_none.mp hnone]
      rw [leads_bind]
      refine leads_setPlan hk (fun _ => ⟨rfl, rfl⟩) fun k hk => ?_
      refine leads_moveTo hk fun k hk => ?_
      refine ⟨hk.visit ho (Or.inl ⟨hfirst, .estimated rfl rfl⟩), Or.inr (Or.inl hk.place),
        hk.alike.hosts, fun features => ⟨?_, fun hne => absurd (hnothing features) hne⟩,
        fun features => ?_⟩
      · rw [hk.plan]
        exact requestLines_fillExpected (m.plan id) m.media.capacity features
      · simp [placeAsked, hk.place, hp, DiskPlan.afterRequest, hnothing features, hsized]
    · refine ⟨hk.visit ho (Or.inl ⟨hfirst, .ready hready rfl⟩), Or.inl (hk.place.trans hp.symm),
        hk.alike.hosts, fun features => ⟨?_, fun _ => hk.place.trans hp.symm⟩, fun features => ?_⟩
      · rw [hk.plan]
        exact requestLines_fillExpected ..
      · rw [placeAsked, placeAsked, hk.place, hp, hk.plan, DiskPlan.afterRequest,
          requestLines_fillExpected]
        rfl
  · exact ⟨.refl hs hst, Or.inl rfl, rfl, fun _ => ⟨rfl, fun _ => rfl⟩, fun _ => rfl⟩

theorem leads_announceSource {post : Unit → Night → Prop} (hb : Becomes id p q n m)
    (features : FeatureSet) (next : ∀ k, Becomes id p q n k → post () k) :
    Leads (announceSource id features) m post fail := by
  simp only [announceSource, leads_bind, leads_get]
  split
  · exact leads_say hb _ next
  · exact next m hb

/-- A disk on the start queue is named in the request by all its lines. It leaves the queue, unless
its host alone sizes it: then it has to wait for the answer. -/
theorem leads_askDisk (features : FeatureSet) (hs : m.Sound) (hn : id ∈ named)
    (hst : Standing [] first id (m.plan id) (m.place id)) :
    Leads (askDisk features id) m (fun lines k => Visit named first h id m k ∧
      lines = (if m.place id = some .start then (m.plan id).requestLines features else []) ∧
      ((k.place id ≠ some .start ∧ k.place id = m.placeAsked features id) ∨
        (lines ≠ [] ∧ k.place id = some .start ∧ (k.plan id).progress = .active ∧
          m.placeAsked features id = some .waiting))) fail := by
  simp only [askDisk, leads_bind, leads_get]
  split
  · rename_i hkept
    have hp : m.place id ≠ some .start := by
      intro hp
      have hready := (hp ▸ hst).of_start.2
      simp [isStartable, hready] at hkept
      exact hkept hp
    exact ⟨.refl hs (hst.mono (by simp)), (if_neg hp).symm, Or.inl ⟨hp, (if_neg hp).symm⟩⟩
  · rename_i hstartable
    have hp : m.place id = some .start := by
      simp [isStartable] at hstartable
      exact hstartable.1
    obtain ⟨hfirst, -⟩ := (hp ▸ hst).of_start
    have ho := (hp ▸ hst).not_over (Or.inl rfl)
    have hb := Becomes.refl hs (hs.lt_of_place hp)
    rw [hp] at hb
    simp only [leads_bind, hp, if_true]
    refine leads_setPlan hb (fun _ => ⟨rfl, rfl⟩) fun k hk => ?_
    refine leads_announceSource hk features fun k hk => ?_
    simp only [getPlan, leads_bind, leads_get, leads_pure]
    have hsame : (k.plan id).requestLines features = (m.plan id).requestLines features := by
      rw [hk.plan]
      rfl
    have hdisk : (k.plan id).disk = (m.plan id).disk := by rw [hk.plan]
    have hasked : m.placeAsked features id = some ((m.plan id).afterRequest features) := if_pos hp
    -- A record that leaves the start queue is where a request takes it.
    have hleft : ∀ {p' name k'}, Becomes id p' (some name) m k' →
        (m.plan id).afterRequest features = name → name ≠ .start →
        k'.place id ≠ some .start ∧ k'.place id = m.placeAsked features id := by
      intro p' name k' hb hname hstart
      rw [hb.place, hasked, hname]
      exact ⟨fun e => hstart (Option.some.inj e), rfl⟩
    rw [hsame, hdisk]
    split
    · rename_i hempty
      have hempty := List.isEmpty_iff.mp hempty
      split
      · rename_i hsized
        simp only [leads_bind]
        refine leads_setPlan hk ?_ fun k hk => ?_
        · intro p
          unfold noteUnasked
          split <;> exact ⟨rfl, rfl⟩
        · refine leads_moveTo hk fun k hk => ?_
          refine ⟨hk.visit ho (Or.inl ⟨hfirst, .estimated rfl rfl⟩), rfl,
            Or.inl (hleft hk ?_ (by decide))⟩
          rw [DiskPlan.afterRequest, if_pos hempty, if_pos hsized]
      · rename_i hsized
        simp only [leads_bind]
        refine leads_setPlan hk (fun _ => ⟨rfl, rfl⟩) fun k hk => ?_
        refine leads_failFrom hk _ fun k hk => ?_
        refine ⟨hk.visit ho (Or.inl ⟨hfirst, .failed rfl rfl rfl⟩), rfl,
          Or.inl (hleft hk ?_ (by decide))⟩
        rw [DiskPlan.afterRequest, if_pos hempty, if_neg hsized]
    · rename_i hlines
      have hne : (m.plan id).requestLines features ≠ [] := by
        simpa using hlines
      split
      · rename_i hsized
        simp only [leads_bind]
        refine leads_moveTo hk fun k hk => ?_
        refine leads_setPlan hk (fun _ => ⟨rfl, rfl⟩) fun k hk => ?_
        refine ⟨hk.visit ho (Or.inl ⟨hfirst, .answering rfl rfl⟩), rfl,
          Or.inl (hleft hk ?_ (by decide))⟩
        rw [DiskPlan.afterRequest, if_neg hne, if_pos hsized]
      · rename_i hsized
        simp only [leads_bind]
        refine leads_setPlan hk (fun _ => ⟨rfl, rfl⟩) fun k hk => ?_
        refine ⟨hk.visit ho (Or.inl ⟨hfirst, .named rfl rfl hn⟩), rfl,
          Or.inr ⟨hne, hk.place, by rw [hk.plan], ?_⟩⟩
        rw [hasked, DiskPlan.afterRequest, if_neg hne, if_neg hsized]

/-- A disk that is named in the request waits for the answer. -/
theorem leads_awaitAnswer (hs : m.Sound)
    (hst : Standing named first id (m.plan id) (m.place id))
    (hnamed : m.place id = some .start → (m.plan id).progress = .active) :
    Leads (awaitAnswer id) m (fun _ k => Visit named first h id m k ∧
      k.place id = if m.place id = some .start then some .waiting else m.place id) fail := by
  simp only [awaitAnswer, leads_bind, leads_get]
  split
  · rename_i hactive
    obtain ⟨hprogress, hp⟩ := hactive
    change m.place id = _ at hp
    obtain ⟨hfirst, -⟩ := (hp ▸ hst).of_open (by simp)
    have hb := Becomes.refl hs (hs.lt_of_place hp)
    rw [hp] at hb
    rw [leads_bind]
    refine leads_setPlan hb (fun _ => ⟨rfl, rfl⟩) fun k hk => ?_
    refine leads_moveTo hk fun k hk => ?_
    refine ⟨hk.visit (by simp [hprogress]) (Or.inl ⟨hfirst, .waiting hprogress rfl⟩), ?_⟩
    rw [hk.place, if_pos hp]
  · rename_i hkept
    exact ⟨.refl hs hst, (if_neg fun hp => hkept ⟨hnamed hp, hp⟩).symm⟩

/-- The disk of a host that failed is estimated or has failed, if it was still open. -/
theorem leads_resolveFailed (words : String) (hs : m.Sound)
    (hst : Standing [] first id (m.plan id) (m.place id)) :
    Leads (resolveFailed words id) m
      (fun _ k => Visit [] first h id m k ∧ Resolved k id) fail := by
  simp only [resolveFailed, leads_bind, leads_get]
  split
  · rename_i source hp
    change m.place id = some source at hp
    rw [hp] at hst
    split
    · rename_i hopen
      have hne : source ≠ .failed := by
        rintro rfl
        simp at hopen
      obtain ⟨hfirst, -⟩ := hst.of_open hne
      have ho := hst.not_over hopen
      have hb := Becomes.refl hs (hs.lt_of_place hp)
      rw [hp] at hb
      simp only [leads_bind]
      refine leads_setPlan hb (fun _ => ⟨rfl, rfl⟩) fun k hk => ?_
      simp only [getPlan, leads_bind, leads_get, leads_pure]
      split
      · simp only [leads_bind]
        refine leads_setPlan hk (fun _ => ⟨rfl, rfl⟩) fun k hk => ?_
        refine leads_moveTo hk fun k hk => ?_
        exact ⟨hk.visit ho (Or.inl ⟨hfirst, .estimated rfl rfl⟩), Or.inr (Or.inl hk.place)⟩
      · simp only [leads_bind]
        refine leads_failFrom hk _ fun k hk => ?_
        exact ⟨hk.visit ho (Or.inl ⟨hfirst, .failed rfl rfl rfl⟩), Or.inr (Or.inr hk.place)⟩
    · rename_i hclosed
      refine ⟨.refl hs (hp ▸ hst), ?_⟩
      rw [Resolved, hp]
      rcases hst with ⟨-, hin⟩ | haside
      · cases hin with
        | ready progress place => cases place; simp at hclosed
        | named progress place mem => cases mem
        | waiting progress place => cases place; simp at hclosed
        | answering progress place => cases place; simp at hclosed
        | estimated progress place => exact Or.inr (Or.inl place)
        | failed progress place fault => exact Or.inr (Or.inr place)
      · rw [haside.place]
        rcases haside.why with e | ⟨e, -⟩
        · exact Or.inl e
        · exact Or.inr (Or.inr e)
  · rename_i hp
    exact ⟨.refl hs hst, Or.inl hp⟩

theorem leads_settleFrom {source : QueueName} (kind : PacketKind) (hs : m.Sound)
    (hp : m.place id = some source) (ha : Awaits m id) (ho : (m.plan id).progress ≠ .done) :
    Leads (settleFrom h kind source id) m
      (fun _ k => Visit [] (some .start) h id m k ∧ Settled kind h m k id) fail := by
  have hb := Becomes.refl hs (hs.lt_of_place hp)
  rw [hp] at hb
  simp only [settleFrom, getPlan, leads_bind, leads_get, leads_pure]
  refine leads_remove hb fun k hk => ?_
  split
  · rename_i hkind
    rw [leads_bind]
    refine leads_setPlan hk (fun _ => ⟨rfl, rfl⟩) fun k hk => ?_
    refine leads_enqueue hk fun k hk => ?_
    refine ⟨hk.visit ho (Or.inl ⟨rfl, .answering rfl rfl⟩), Or.inr ⟨ha, ?_⟩⟩
    rw [if_pos hkind]
    exact ⟨Or.inr hk.place, by simp only [host, hk.alike.hosts]⟩
  · rename_i hkind
    simp only [leads_bind]
    refine leads_setPlan hk (fun _ => ⟨rfl, rfl⟩) fun k hk => ?_
    simp only [setHost, leads_modify]
    have hk' := Becomes.refl (n := k.setHost h fun host => { host with state := .done })
      (hk.sound.setHost h _) hk.lt
    rw [plan_setHost, place_setHost, hk.plan, hk.place] at hk'
    have hstate : ∀ {l p q}, Becomes id p q (k.setHost h fun host =>
        { host with state := .done }) l → (l.host h).state ≠ .active := by
      intro l p q hl
      rw [host, hl.alike.hosts]
      exact state_setHost (P := (· ≠ _)) k h (by decide) (by decide)
    split
    · refine leads_enqueue hk' fun l hl => ?_
      refine ⟨hk.visitAfter ho hl (fun _ => ⟨rfl, rfl⟩) (Or.inl ⟨rfl, .estimated rfl rfl⟩),
        Or.inr ⟨ha, ?_⟩⟩
      rw [if_neg hkind]
      exact ⟨Or.inr (Or.inl hl.place), hstate hl⟩
    · simp only [leads_bind, leads_get]
      refine leads_setPlan hk' (fun _ => ⟨rfl, rfl⟩) fun l hl => ?_
      refine leads_enqueue hl fun l hl => ?_
      refine ⟨hk.visitAfter ho hl (fun _ => ⟨rfl, rfl⟩) (Or.inl ⟨rfl, .failed rfl rfl rfl⟩),
        Or.inr ⟨ha, ?_⟩⟩
      rw [if_neg hkind]
      exact ⟨Or.inr (Or.inr hl.place), hstate hl⟩

theorem leads_settleDisk (kind : PacketKind) (hs : m.Sound)
    (hst : Standing [] first id (m.plan id) (m.place id)) :
    Leads (settleDisk h kind id) m
      (fun _ k => Visit [] first h id m k ∧ Settled kind h m k id) fail := by
  have hkept : ¬Awaits m id →
      Visit [] first h id m m ∧ Settled kind h m m id :=
    fun ha => ⟨.refl hs hst, Or.inl ⟨ha, rfl, rfl⟩⟩
  simp only [settleDisk, getPlan, leads_bind, leads_get, leads_pure]
  rcases hst with ⟨rfl, hin⟩ | haside
  · cases hin with
    | ready progress place =>
      rw [progress]
      refine hkept ?_
      simp [Awaits, place]
    | named progress place mem => cases mem
    | waiting progress place =>
      rw [progress]
      exact leads_settleFrom kind hs place (Or.inl place) (by simp [progress])
    | answering progress place =>
      rw [progress]
      exact leads_settleFrom kind hs place (Or.inr place) (by simp [progress])
    | estimated progress place =>
      rw [progress]
      refine hkept ?_
      simp [Awaits, place]
    | failed progress place fault =>
      rw [progress]
      refine hkept ?_
      simp [Awaits, place]
  · rw [haside.progress]
    refine hkept ?_
    rcases haside.why with e | ⟨e, -⟩ <;> simp [Awaits, haside.place, e]

end Planning

end

end NightlyBackup
