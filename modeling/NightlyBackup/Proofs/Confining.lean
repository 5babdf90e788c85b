import NightlyBackup.Proofs.Asking
import NightlyBackup.Proofs.Becoming

/-!
Actions that are confined to one host. Such an action changes nothing but the host, the plans
of its disks and their places on the queues, and it looks at nothing else either. So it leaves
the view that any other host gives of the night as it was, and two nights that give the same
view of the host give it still when the action has been done in both.
-/

namespace NightlyBackup

namespace Night

variable {n m k : Night} {h id : Nat} {name : QueueName} {ids : List Nat}

/-- A later state of the night `n`: the disks and hosts are the same. -/
structure Later (n m : Night) : Prop where
  sound : m.Sound
  same : n.SameDisks m

namespace Later

theorem owner (hm : n.Later m) (hn : n.Hosted) (hid : id ∈ (m.host h).disks) :
    (n.plan id).host = h := by
  rw [hm.same.disks] at hid
  exact (hn.owner hid).2

theorem hostName (hm : n.Later m) (hk : n.Later k) : k.hostName id = m.hostName id := by
  simp only [Night.hostName, hm.same.owner, hk.same.owner, hm.same.hostName, hk.same.hostName]

theorem diskName (hm : n.Later m) (hk : n.Later k) : k.diskName id = m.diskName id := by
  simp only [Night.diskName, hm.same.diskName, hk.same.diskName]

end Later

def ofHost (n : Night) (h : Nat) (ids : List Nat) : List Nat :=
  ids.filter fun id => (n.plan id).host = h

structure SameFor (n : Night) (h : Nat) (m k : Night) : Prop where
  settings : k.settings = m.settings
  media : k.media = m.media
  host : k.host h = m.host h
  plan : ∀ {id}, (n.plan id).host = h → k.plan id = m.plan id
  order : ∀ name, n.ofHost h (k.queues.members name) = n.ofHost h (m.queues.members name)

theorem mem_ofHost : id ∈ n.ofHost h ids ↔ id ∈ ids ∧ (n.plan id).host = h := by
  simp [ofHost]

theorem ofHost_append_self (hid : (n.plan id).host = h) :
    n.ofHost h (ids ++ [id]) = n.ofHost h ids ++ [id] := by
  simp [ofHost, List.filter_append, hid]

theorem ofHost_append_other (hid : (n.plan id).host ≠ h) :
    n.ofHost h (ids ++ [id]) = n.ofHost h ids := by
  simp [ofHost, List.filter_append, hid]

theorem ofHost_erase : n.ofHost h (ids.erase id) = (n.ofHost h ids).erase id :=
  List.erase_filter.symm

theorem ofHost_erase_other (hid : (n.plan id).host ≠ h) :
    n.ofHost h (ids.erase id) = n.ofHost h ids := by
  rw [ofHost_erase, List.erase_of_not_mem fun hm => hid (mem_ofHost.mp hm).2]

namespace SameFor

theorem refl (n : Night) (h : Nat) (m : Night) : SameFor n h m m :=
  ⟨rfl, rfl, rfl, fun _ => rfl, fun _ => rfl⟩

theorem symm (hs : SameFor n h m k) : SameFor n h k m :=
  ⟨hs.settings.symm, hs.media.symm, hs.host.symm, fun hid => (hs.plan hid).symm,
    fun name => (hs.order name).symm⟩

theorem trans {l : Night} (hmk : SameFor n h m k) (hkl : SameFor n h k l) : SameFor n h m l :=
  ⟨hkl.settings.trans hmk.settings, hkl.media.trans hmk.media, hkl.host.trans hmk.host,
    fun hid => (hkl.plan hid).trans (hmk.plan hid),
    fun name => (hkl.order name).trans (hmk.order name)⟩

/-- The disks of the host are on the same queues. -/
theorem queueOf (hs : SameFor n h m k) (hm : n.Later m) (hk : n.Later k)
    (hid : (n.plan id).host = h) : k.queues.queueOf id = m.queues.queueOf id := by
  refine Option.ext fun name => ?_
  have hmem : ∀ ids : List Nat, id ∈ ids ↔ id ∈ n.ofHost h ids :=
    fun ids => ⟨fun hm => mem_ofHost.mpr ⟨hm, hid⟩, fun hm => (mem_ofHost.mp hm).1⟩
  rw [hk.sound.valid.queueOf_iff, hm.sound.valid.queueOf_iff, hmem, hs.order, ← hmem]

end SameFor

/-! ## Elementary changes -/

theorem Later.setPlan {f : DiskPlan → DiskPlan} (hm : n.Later m)
    (hf : ∀ p, (f p).question = p.question) : n.Later (m.setPlan id f) :=
  have hat : OnlyAt id m (m.setPlan id f) :=
    OnlyAt.setPlan fun p => ⟨congrArg Question.host (hf p), congrArg (·.disk.name) (hf p)⟩
  ⟨hm.sound.setPlan f, hm.same.trans hat.same⟩

theorem question_setPlan {f : DiskPlan → DiskPlan} (hf : ∀ p, (f p).question = p.question)
    (j : Nat) : ((m.setPlan id f).plan j).question = (m.plan j).question :=
  plan_setPlan_cases (P := fun p => p.question = (m.plan j).question) (hf _) rfl

/-- The same change to the same plan in two nights. -/
theorem plan_setPlan_congr {f : DiskPlan → DiskPlan} (hl : k.plans.length = m.plans.length)
    {j : Nat} (hp : k.plan j = m.plan j) : (k.setPlan id f).plan j = (m.setPlan id f).plan j := by
  by_cases hj : j = id
  · subst hj
    by_cases hlt : j < m.plans.length
    · rw [plan_setPlan_self (hl ▸ hlt), plan_setPlan_self hlt, hp]
    · have hle := Nat.le_of_not_lt hlt
      rw [plan_of_le (by simpa [hl] using hle), plan_of_le (by simpa using hle)]
  · rw [plan_setPlan_of_ne hj, plan_setPlan_of_ne hj, hp]

theorem Later.setHost {f : Host → Host} (hm : n.Later m)
    (hf : ∀ x, (f x).name = x.name ∧ (f x).disks = x.disks) : n.Later (m.setHost h f) :=
  ⟨hm.sound.setHost h f, hm.same.trans (onlyAt_setHost 0 h hf).same⟩

theorem host_setHost_congr {f : Host → Host} (hl : k.hosts.length = m.hosts.length)
    (hh : k.host h = m.host h) : (k.setHost h f).host h = (m.setHost h f).host h := by
  by_cases hlt : h < m.hosts.length
  · rw [host_setHost_self (hl ▸ hlt), host_setHost_self hlt, hh]
  · have hle := Nat.le_of_not_lt hlt
    rw [host_of_le (by simpa [hl] using hle), host_of_le (by simpa using hle)]

theorem Later.withQueues {q : Queues} (hm : n.Later m) (hs : (m.withQueues q).Sound) :
    n.Later (m.withQueues q) :=
  ⟨hs, hm.same.trans ⟨rfl, fun _ => rfl, fun _ => rfl, rfl, fun _ => rfl, fun _ => rfl⟩⟩

theorem Sound.members_join (hs : m.Sound) (hid : id < m.plans.length) (hp : m.place id = none)
    (other : QueueName) : (m.queues.join name id).members other =
      if other = name then m.queues.members other ++ [id] else m.queues.members other := by
  rw [(hs.valid.holds_join (hs.registered ▸ hid) hp).members_eq, Function.update_apply]
  split
  · rename_i e
    rw [e]
  · rfl

theorem Sound.members_leave (hs : m.Sound) (hp : m.place id = some name) (other : QueueName) :
    (m.queues.leave name id).members other =
      if other = name then (m.queues.members other).erase id else m.queues.members other := by
  rw [(hs.valid.holds_leave (hs.place_iff.mp hp)).members_eq, Function.update_apply]
  split
  · rename_i e
    rw [e]
  · rfl

end Night

/-! ## Actions that are carried out -/

namespace Planning

variable {m k : Night} {id : Nat} {name source target : QueueName}

theorem ok_of_onQueues {f : Queues → Except QueueFault Queues} (h : onQueues f m = .ok () k) :
    ∃ q, f m.queues = .ok q ∧ k = m.withQueues q := by
  have hq : Leads (onQueues f) m
      (fun _ k => ∃ q, f m.queues = .ok q ∧ k = m.withQueues q) fun _ _ => True := by
    simp only [onQueues, leads_bind, leads_get]
    split
    · rename_i q hq
      exact ⟨q, hq, rfl⟩
    · trivial
  exact hq.ok h

theorem ok_of_enqueue (hs : m.Sound) (h : enqueue name id m = .ok () k) :
    id < m.plans.length ∧ m.place id = none ∧ k = m.withQueues (m.queues.join name id) := by
  obtain ⟨q, hq, rfl⟩ := ok_of_onQueues h
  simp only [Queues.enqueue, bind, Except.bind] at hq
  split at hq
  · cases hq
  · rename_i hfree
    cases hq
    obtain ⟨hid, hp⟩ := Queues.of_checkFree hfree
    exact ⟨hs.registered ▸ hid, hp, rfl⟩

theorem ok_of_insertSorted {ahead : Nat → Nat → Bool} (hs : m.Sound)
    (h : onQueues (·.insertSorted name ahead id) m = .ok () k) :
    id < m.plans.length ∧ m.place id = none ∧
      k = m.withQueues (m.queues.joinAhead name ahead id) := by
  obtain ⟨q, hq, rfl⟩ := ok_of_onQueues h
  simp only [Queues.insertSorted, bind, Except.bind] at hq
  split at hq
  · cases hq
  · rename_i hfree
    cases hq
    obtain ⟨hid, hp⟩ := Queues.of_checkFree hfree
    exact ⟨hs.registered ▸ hid, hp, rfl⟩

theorem ok_of_remove (h : remove name id m = .ok () k) :
    m.place id = some name ∧ k = m.withQueues (m.queues.leave name id) := by
  obtain ⟨q, hq, rfl⟩ := ok_of_onQueues h
  unfold Queues.remove at hq
  split at hq
  · cases hq
  · split at hq
    · rename_i hp
      cases hq
      exact ⟨hp, rfl⟩
    · cases hq

/-- To move a record is to take it off its queue and to append it to the other one. -/
theorem ok_of_moveTo (h : moveTo id source target m = .ok () k) :
    (do remove source id; enqueue target id) m = .ok () k := by
  obtain ⟨q, hq, rfl⟩ := ok_of_onQueues h
  simp only [Queues.moveTo, bind, Except.bind] at hq
  cases hr : m.queues.remove source id with
  | error f => rw [hr] at hq; cases hq
  | ok q' =>
    rw [hr] at hq
    have hremove : remove source id m = .ok () (m.withQueues q') := onQueues_ok hr
    have henqueue : enqueue target id (m.withQueues q') = .ok () (m.withQueues q) :=
      onQueues_ok hq
    exact (bind_of_ok hremove).trans henqueue

end Planning

/-! ## Confined actions -/

open Night Planning

/-- An action that is confined to the host `h` of the night `n`. -/
inductive Confined (n : Night) (h : Nat) : {α : Type} → Planning α → Prop
  | pure {α : Type} (a : α) : Confined n h (pure a)
  | bind {α β : Type} {act : Planning α} {next : α → Planning β} :
    Confined n h act → (∀ a, Confined n h (next a)) → Confined n h (act >>= next)
  /-- The night may be looked at, but two nights that give the same view of the host must lead
  to the same action. -/
  | look {α : Type} {next : Night → Planning α} :
    (∀ m, n.Later m → Confined n h (next m)) →
    (∀ m k, n.Later m → n.Later k → SameFor n h m k → next k = next m) →
    Confined n h (get >>= next)
  | say (e : Event) : Confined n h (Planning.say e)
  | reckon (what : Option Overflow) : Confined n h (Planning.reckon what)
  | setPlan {id : Nat} {f : DiskPlan → DiskPlan} : (n.plan id).host = h →
    (∀ p, (f p).question = p.question) → Confined n h (Planning.setPlan id f)
  | setHost {f : Host → Host} : (∀ x, (f x).name = x.name ∧ (f x).disks = x.disks) →
    Confined n h (Planning.setHost h f)
  | enqueue {id : Nat} (name : QueueName) : (n.plan id).host = h →
    Confined n h (Planning.enqueue name id)
  | remove {id : Nat} (name : QueueName) : (n.plan id).host = h →
    Confined n h (Planning.remove name id)
  /-- An action that does what a confined one does, where it does not fail. -/
  | refine {α : Type} {act act' : Planning α} : Confined n h act →
    (∀ m a k, act' m = .ok a k → act m = .ok a k) → Confined n h act'

/-- What is left alone between two states of the night `n` by what is confined to `h`. -/
structure Leaves (n : Night) (h : Nat) (m k : Night) : Prop where
  later : n.Later k
  others : ∀ {g}, g ≠ h → SameFor n g m k
  question : ∀ id, (k.plan id).question = (m.plan id).question
  sent : k.sent = m.sent

namespace Confined

variable {n m m' k k' : Night} {h id : Nat} {α β : Type} {act : Planning α} {a a' : α}

/-- A confined action leaves every other host alone. -/
theorem leaves (hc : Confined n h act) (hm : n.Later m) (e : act m = .ok a k) :
    Leaves n h m k := by
  induction hc generalizing m k with
  | pure a =>
    cases e
    exact ⟨hm, fun _ => .refl .., fun _ => rfl, rfl⟩
  | bind _ _ ihact ihnext =>
    obtain ⟨b, l, hl, hk⟩ := ok_of_bind e
    have hml := ihact hm hl
    have hlk := ihnext b hml.later hk
    exact ⟨hlk.later, fun hg => (hml.others hg).trans (hlk.others hg),
      fun id => (hlk.question id).trans (hml.question id), hlk.sent.trans hml.sent⟩
  | look _ _ ih => exact ih m hm hm e
  | say event =>
    cases e
    exact ⟨⟨⟨hm.sound.valid, hm.sound.registered⟩, hm.same.trans (onlyAt_say 0 event).same⟩,
      fun _ => ⟨rfl, rfl, rfl, fun _ => rfl, fun _ => rfl⟩, fun _ => rfl, rfl⟩
  | reckon what =>
    cases e
    exact ⟨⟨hm.sound.reckon what, hm.same.trans (sameDisks_reckon m what)⟩,
      fun _ => ⟨rfl, rfl, rfl, fun _ => rfl, fun _ => rfl⟩, fun _ => rfl, rfl⟩
  | @setPlan id f howner hf =>
    cases e
    refine ⟨hm.setPlan hf, fun hg => ⟨rfl, rfl, rfl, fun {j} hj => ?_, fun _ => rfl⟩,
      question_setPlan hf, rfl⟩
    refine plan_setPlan_of_ne fun e => hg ?_
    rw [← hj, e, howner]
  | setHost hf =>
    cases e
    exact ⟨hm.setHost hf, fun hg => ⟨rfl, rfl, host_setHost_of_ne hg, fun _ => rfl,
      fun _ => rfl⟩, fun _ => rfl, rfl⟩
  | @enqueue id name howner =>
    obtain ⟨hid, hp, rfl⟩ := ok_of_enqueue hm.sound e
    refine ⟨hm.withQueues (hm.sound.join hid hp), fun hg => ⟨rfl, rfl, rfl, fun _ => rfl, ?_⟩,
      fun _ => rfl, rfl⟩
    intro other
    rw [queues_withQueues, hm.sound.members_join hid hp]
    split
    · exact ofHost_append_other (howner ▸ hg.symm)
    · rfl
  | @remove id name howner =>
    obtain ⟨hp, rfl⟩ := ok_of_remove e
    refine ⟨hm.withQueues (hm.sound.leave hp), fun hg => ⟨rfl, rfl, rfl, fun _ => rfl, ?_⟩,
      fun _ => rfl, rfl⟩
    intro other
    rw [queues_withQueues, hm.sound.members_leave hp]
    split
    · exact ofHost_erase_other (howner ▸ hg.symm)
    · rfl
  | refine _ hrefines ih => exact ih hm (hrefines _ _ _ e)

/-- A confined action does the same in two nights that give the same view of its host. -/
theorem twin (hc : Confined n h act) (hm : n.Later m) (hm' : n.Later m')
    (hs : SameFor n h m m') (e : act m = .ok a k) (e' : act m' = .ok a' k') :
    a' = a ∧ SameFor n h k k' := by
  have hplans : ∀ {m m'}, n.Later m → n.Later m' → m'.plans.length = m.plans.length :=
    fun hm hm' => hm'.same.length.trans hm.same.length.symm
  induction hc generalizing m m' k k' with
  | pure a =>
    cases e
    cases e'
    exact ⟨rfl, hs⟩
  | bind hact _ ihact ihnext =>
    obtain ⟨b, l, hl, hk⟩ := ok_of_bind e
    obtain ⟨b', l', hl', hk'⟩ := ok_of_bind e'
    obtain ⟨rfl, hls⟩ := ihact hm hm' hs hl hl'
    exact ihnext b' (hact.leaves hm hl).later (hact.leaves hm' hl').later hls hk hk'
  | @look _ next _ hsame ih =>
    have e' : next m' m' = .ok a' k' := e'
    rw [hsame m m' hm hm' hs] at e'
    exact ih m hm hm hm' hs e e'
  | say event =>
    cases e
    cases e'
    exact ⟨rfl, hs.settings, hs.media, hs.host, hs.plan, hs.order⟩
  | reckon what =>
    cases e
    cases e'
    exact ⟨rfl, hs.settings, hs.media, hs.host, hs.plan, hs.order⟩
  | setPlan howner hf =>
    cases e
    cases e'
    exact ⟨rfl, hs.settings, hs.media, hs.host,
      fun hj => plan_setPlan_congr (hplans hm hm') (hs.plan hj), hs.order⟩
  | setHost hf =>
    cases e
    cases e'
    exact ⟨rfl, hs.settings, hs.media,
      host_setHost_congr (hm'.same.hosts.trans hm.same.hosts.symm) hs.host, hs.plan, hs.order⟩
  | @enqueue id name howner =>
    obtain ⟨hid, hp, rfl⟩ := ok_of_enqueue hm.sound e
    obtain ⟨hid', hp', rfl⟩ := ok_of_enqueue hm'.sound e'
    refine ⟨rfl, hs.settings, hs.media, hs.host, hs.plan, fun other => ?_⟩
    rw [queues_withQueues, queues_withQueues, hm.sound.members_join hid hp,
      hm'.sound.members_join hid' hp']
    split
    · rw [ofHost_append_self howner, ofHost_append_self howner, hs.order]
    · exact hs.order other
  | @remove id name howner =>
    obtain ⟨hp, rfl⟩ := ok_of_remove e
    obtain ⟨hp', rfl⟩ := ok_of_remove e'
    refine ⟨rfl, hs.settings, hs.media, hs.host, hs.plan, fun other => ?_⟩
    rw [queues_withQueues, queues_withQueues, hm.sound.members_leave hp,
      hm'.sound.members_leave hp']
    split
    · rw [ofHost_erase, ofHost_erase, hs.order]
    · exact hs.order other
  | refine _ hrefines ih => exact ih hm hm' hs (hrefines _ _ _ e) (hrefines _ _ _ e')

/-! ## Composite actions -/

theorem map {f : α → β} (hc : Confined n h act) : Confined n h (f <$> act) := by
  rw [map_eq_pure_bind]
  exact hc.bind fun a => .pure _

theorem moveTo (source target : QueueName) (hid : (n.plan id).host = h) :
    Confined n h (Planning.moveTo id source target) :=
  .refine (.bind (.remove source hid) fun _ => .enqueue target hid) fun _ _ _ => ok_of_moveTo

theorem failFrom (source : QueueName) (reason : String) (hid : (n.plan id).host = h) :
    Confined n h (Planning.failFrom id source reason) :=
  .bind (.moveTo source .failed hid) fun _ => .setPlan hid fun _ => rfl

theorem getPlan (hid : (n.plan id).host = h) : Confined n h (Planning.getPlan id) :=
  .look (fun _ _ => .pure _) fun _ _ _ _ hs => by rw [hs.plan hid]

theorem mapM {ι : Type} {visit : ι → Planning β} {ids : List ι}
    (hv : ∀ id ∈ ids, Confined n h (visit id)) : Confined n h (ids.mapM visit) := by
  induction ids with
  | nil => exact .pure _
  | cons id ids ih =>
    rw [List.mapM_cons]
    exact .bind (hv id (List.mem_cons_self ..)) fun _ =>
      .bind (ih fun j hj => hv j (List.mem_cons_of_mem _ hj)) fun _ => .pure _

theorem forM {ι : Type} {visit : ι → Planning Unit} {ids : List ι}
    (hv : ∀ id ∈ ids, Confined n h (visit id)) : Confined n h (ids.forM visit) := by
  induction ids with
  | nil => exact .pure _
  | cons id ids ih =>
    exact .bind (hv id (List.mem_cons_self ..)) fun _ =>
      ih fun j hj => hv j (List.mem_cons_of_mem _ hj)

end Confined

end NightlyBackup
