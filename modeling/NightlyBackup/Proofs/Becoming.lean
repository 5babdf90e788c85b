import NightlyBackup.Proofs.Reckoning

/-!
What becomes of one record: an action that is about one record leaves all the others as
they are, and of the rest of the night it changes at most what the operator is told. Such
actions follow one another; the last word on the plan and on the queue is what counts.
-/

namespace NightlyBackup

namespace Night

variable {n m k : Night} {id j h : Nat} {f : DiskPlan → DiskPlan} {name target : QueueName}

def skips (n : Night) (id : Nat) : Nat := n.skipped.countP (·.record = id)

/-- What `n` and `m` know of records differs at `id` alone. -/
structure OnlyAt (id : Nat) (n m : Night) : Prop where
  same : n.SameDisks m
  plan : ∀ {j}, j ≠ id → m.plan j = n.plan j
  place : ∀ {j}, j ≠ id → m.place j = n.place j
  skips : ∀ {j}, j ≠ id → m.skips j = n.skips j

namespace OnlyAt

theorem trans (hnm : OnlyAt id n m) (hmk : OnlyAt id m k) : OnlyAt id n k :=
  ⟨hnm.same.trans hmk.same, fun hj => (hmk.plan hj).trans (hnm.plan hj),
    fun hj => (hmk.place hj).trans (hnm.place hj), fun hj => (hmk.skips hj).trans (hnm.skips hj)⟩

/-- What holds of one record afterwards and of the others before holds of all of them. -/
theorem each {P : Nat → DiskPlan → Option QueueName → Prop} (ho : OnlyAt id n m)
    (hid : P id (m.plan id) (m.place id)) (hothers : ∀ j, j ≠ id → P j (n.plan j) (n.place j))
    (j : Nat) : P j (m.plan j) (m.place j) := by
  by_cases hj : j = id
  · exact hj ▸ hid
  · rw [ho.plan hj, ho.place hj]
    exact hothers j hj

theorem setPlan (hf : ∀ p, (f p).host = p.host ∧ (f p).disk.name = p.disk.name) :
    OnlyAt id n (n.setPlan id f) := by
  have hkept : ∀ j, ((n.setPlan id f).plan j).host = (n.plan j).host ∧
      ((n.setPlan id f).plan j).disk.name = (n.plan j).disk.name := fun j =>
    plan_setPlan_cases (P := fun p => p.host = (n.plan j).host ∧
      p.disk.name = (n.plan j).disk.name) (hf _) ⟨rfl, rfl⟩
  exact ⟨⟨length_setPlan, fun j => (hkept j).1, fun j => (hkept j).2, rfl, fun _ => rfl,
    fun _ => rfl⟩, plan_setPlan_of_ne, fun _ => rfl, fun _ => rfl⟩

/-- A night that differs in nothing but its queues. -/
theorem withQueues {q : Queues} (hq : ∀ {j}, j ≠ id → q.queueOf j = n.place j) :
    OnlyAt id n (n.withQueues q) :=
  ⟨⟨rfl, fun _ => rfl, fun _ => rfl, rfl, fun _ => rfl, fun _ => rfl⟩, fun _ => rfl, hq,
    fun _ => rfl⟩

theorem join (hs : n.Sound) (hid : id < n.plans.length) (hp : n.place id = none) :
    OnlyAt id n (n.withQueues (n.queues.join name id)) :=
  withQueues fun {j} hj => (hs.place_join hid hp j).trans (if_neg hj)

theorem leave (hs : n.Sound) (hp : n.place id = some name) :
    OnlyAt id n (n.withQueues (n.queues.leave name id)) :=
  withQueues fun {j} hj => (hs.place_leave hp j).trans (if_neg hj)

theorem move (hs : n.Sound) (hp : n.place id = some name) :
    OnlyAt id n (n.withQueues ((n.queues.leave name id).join target id)) :=
  withQueues fun {j} hj => (hs.place_move hp j).trans (if_neg hj)

end OnlyAt

/-- What the operator is told changes no record. -/
theorem onlyAt_say (id : Nat) (e : Event) : OnlyAt id n (n.say e) :=
  ⟨⟨rfl, fun _ => rfl, fun _ => rfl, rfl, fun _ => rfl, fun _ => rfl⟩, fun _ => rfl,
    fun _ => rfl, fun _ => rfl⟩

theorem onlyAt_reckon (id : Nat) (what : Option Overflow) : OnlyAt id n (n.reckon what) :=
  ⟨sameDisks_reckon n what, fun _ => rfl, fun _ => rfl, fun _ => rfl⟩

/-- A change to a host that keeps its name and its disks changes no record. -/
theorem onlyAt_setHost (id h : Nat) {fh : Host → Host}
    (hf : ∀ x, (fh x).name = x.name ∧ (fh x).disks = x.disks) :
    OnlyAt id n (n.setHost h fh) := by
  have hkept : ∀ g, ((n.setHost h fh).host g).name = (n.host g).name ∧
      ((n.setHost h fh).host g).disks = (n.host g).disks := by
    intro g
    by_cases hg : g = h
    · subst hg
      exact host_setHost_cases (P := fun x => x.name = (n.host g).name ∧
        x.disks = (n.host g).disks) (hf _) ⟨rfl, rfl⟩
    · rw [host_setHost_of_ne hg]
      exact ⟨rfl, rfl⟩
  exact ⟨⟨rfl, fun _ => rfl, fun _ => rfl, length_setHost, fun g => (hkept g).1,
    fun g => (hkept g).2⟩, fun _ => rfl, fun _ => rfl, fun _ => rfl⟩

/-- A host is in the state that it was given; one that is not known stays in the first. -/
theorem state_setHost {P : HostState → Prop} {state : HostState} (n : Night) (h : Nat)
    (hs : P state) (hr : P .ready) :
    P ((n.setHost h fun x => { x with state := state }).host h).state := by
  by_cases hlt : h < n.hosts.length
  · rw [host_setHost_self hlt]
    exact hs
  · rw [host_of_le (by simpa using Nat.le_of_not_lt hlt)]
    exact hr

/-- `n` and `m` differ at most in records, in what the operator is told and in what has
overflowed. -/
structure Alike (n m : Night) : Prop where
  hosts : m.hosts = n.hosts
  skipped : m.skipped = n.skipped
  totals : n.totals.Reckons m.totals
  media : m.media = n.media

/-- The record `id` of `n` has in `m` the plan `p` and is on the queue `q`, if on any;
nothing else has changed. -/
structure Becomes (id : Nat) (p : DiskPlan) (q : Option QueueName) (n m : Night) : Prop where
  lt : id < m.plans.length
  sound : m.Sound
  only : OnlyAt id n m
  alike : Alike n m
  plan : m.plan id = p
  place : m.place id = q

namespace Becomes

variable {p p' : DiskPlan} {q q' : Option QueueName}

theorem each {P : Nat → DiskPlan → Option QueueName → Prop} (hb : Becomes id p q n m)
    (hid : P id p q) (hothers : ∀ j, j ≠ id → P j (n.plan j) (n.place j)) (j : Nat) :
    P j (m.plan j) (m.place j) := by
  refine hb.only.each ?_ hothers j
  rwa [hb.plan, hb.place]

theorem refl (hs : n.Sound) (hid : id < n.plans.length) :
    Becomes id (n.plan id) (n.place id) n n :=
  ⟨hid, hs, ⟨.refl n, fun _ => rfl, fun _ => rfl, fun _ => rfl⟩, ⟨rfl, rfl, .refl, rfl⟩, rfl, rfl⟩

theorem setPlan (hb : Becomes id p q n m)
    (hf : ∀ p, (f p).host = p.host ∧ (f p).disk.name = p.disk.name) :
    Becomes id (f p) q n (m.setPlan id f) :=
  ⟨by simpa using hb.lt, hb.sound.setPlan f, hb.only.trans (.setPlan hf),
    ⟨hb.alike.hosts, hb.alike.skipped, hb.alike.totals, hb.alike.media⟩,
    (plan_setPlan_self hb.lt).trans (congrArg f hb.plan), hb.place⟩

theorem say (hb : Becomes id p q n m) (e : Event) : Becomes id p q n (m.say e) :=
  ⟨hb.lt, ⟨hb.sound.valid, hb.sound.registered⟩, hb.only.trans (onlyAt_say id e),
    ⟨hb.alike.hosts, hb.alike.skipped, hb.alike.totals, hb.alike.media⟩, hb.plan, hb.place⟩

theorem reckon (hb : Becomes id p q n m) (what : Option Overflow) :
    Becomes id p q n (m.reckon what) :=
  ⟨hb.lt, hb.sound.reckon what, hb.only.trans (onlyAt_reckon id what),
    ⟨hb.alike.hosts, hb.alike.skipped, hb.alike.totals.reckon what, hb.alike.media⟩, hb.plan,
    hb.place⟩

theorem join (hb : Becomes id p none n m) :
    Becomes id p (some name) n (m.withQueues (m.queues.join name id)) :=
  ⟨hb.lt, hb.sound.join hb.lt hb.place, hb.only.trans (.join hb.sound hb.lt hb.place),
    ⟨hb.alike.hosts, hb.alike.skipped, hb.alike.totals, hb.alike.media⟩, hb.plan,
    (hb.sound.place_join hb.lt hb.place id).trans (if_pos rfl)⟩

theorem joinAhead {ahead : Nat → Nat → Bool} (hb : Becomes id p none n m) :
    Becomes id p (some name) n (m.withQueues (m.queues.joinAhead name ahead id)) :=
  ⟨hb.lt, hb.sound.joinAhead hb.lt hb.place,
    hb.only.trans (.withQueues fun {j} hj =>
      (hb.sound.place_joinAhead hb.lt hb.place j).trans (if_neg hj)),
    ⟨hb.alike.hosts, hb.alike.skipped, hb.alike.totals, hb.alike.media⟩, hb.plan,
    (hb.sound.place_joinAhead hb.lt hb.place id).trans (if_pos rfl)⟩

theorem leave (hb : Becomes id p (some name) n m) :
    Becomes id p none n (m.withQueues (m.queues.leave name id)) :=
  ⟨hb.lt, hb.sound.leave hb.place, hb.only.trans (.leave hb.sound hb.place),
    ⟨hb.alike.hosts, hb.alike.skipped, hb.alike.totals, hb.alike.media⟩, hb.plan,
    (hb.sound.place_leave hb.place id).trans (if_pos rfl)⟩

theorem move (hb : Becomes id p (some name) n m) :
    Becomes id p (some target) n (m.withQueues ((m.queues.leave name id).join target id)) :=
  ⟨hb.lt, hb.sound.move hb.place, hb.only.trans (.move hb.sound hb.place),
    ⟨hb.alike.hosts, hb.alike.skipped, hb.alike.totals, hb.alike.media⟩, hb.plan,
    (hb.sound.place_move hb.place id).trans (if_pos rfl)⟩

end Becomes

end Night

/-! ## Actions about one record -/

namespace Planning

open Night

variable {n m : Night} {id : Nat} {p : DiskPlan} {q : Option QueueName}
  {name target : QueueName} {f : DiskPlan → DiskPlan} {post : Unit → Night → Prop}
  {fail : Fault → Night → Prop}

theorem leads_setPlan (hb : Becomes id p q n m)
    (hf : ∀ p, (f p).host = p.host ∧ (f p).disk.name = p.disk.name)
    (next : ∀ k, Becomes id (f p) q n k → post () k) : Leads (setPlan id f) m post fail :=
  leads_modify.mpr (next _ (hb.setPlan hf))

theorem leads_say (hb : Becomes id p q n m) (e : Event)
    (next : ∀ k, Becomes id p q n k → post () k) : Leads (say e) m post fail :=
  leads_modify.mpr (next _ (hb.say e))

theorem leads_enqueue (hb : Becomes id p none n m)
    (next : ∀ k, Becomes id p (some name) n k → post () k) :
    Leads (enqueue name id) m post fail :=
  leads_of_ok (enqueue_ok hb.sound hb.lt hb.place) (next _ hb.join)

theorem leads_remove (hb : Becomes id p (some name) n m)
    (next : ∀ k, Becomes id p none n k → post () k) : Leads (remove name id) m post fail :=
  leads_of_ok (remove_ok hb.sound hb.place) (next _ hb.leave)

theorem leads_moveTo (hb : Becomes id p (some name) n m)
    (next : ∀ k, Becomes id p (some target) n k → post () k) :
    Leads (moveTo id name target) m post fail :=
  leads_of_ok (moveTo_ok hb.sound hb.place) (next _ hb.move)

/-- A record that fails has the reason. -/
theorem leads_failFrom (hb : Becomes id p (some name) n m) (reason : String)
    (next : ∀ k, Becomes id { p with fault := some reason } (some .failed) n k → post () k) :
    Leads (failFrom id name reason) m post fail := by
  simp only [failFrom, leads_bind]
  exact leads_moveTo hb fun _ hk => leads_setPlan hk (fun _ => ⟨rfl, rfl⟩) next

/-- A free record fails. -/
theorem leads_failUnqueued (hb : Becomes id p none n m) (reason : String)
    (next : ∀ k, Becomes id { p with fault := some reason } (some .failed) n k → post () k) :
    Leads (failUnqueued id reason) m post fail := by
  simp only [failUnqueued, leads_bind]
  exact leads_enqueue hb fun _ hk => leads_setPlan hk (fun _ => ⟨rfl, rfl⟩) next

end Planning

end NightlyBackup
