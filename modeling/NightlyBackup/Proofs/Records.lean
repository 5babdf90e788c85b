import NightlyBackup.Night.Moves
import NightlyBackup.Proofs.Leads
import NightlyBackup.Proofs.Queues

/-!
Records of a night: the plan of a record and the queue that it is on. An elementary action
changes both at one record, and says where the record goes; it is refused only if the record
is not where the action expects it.
-/

namespace NightlyBackup

namespace Night

variable {n : Night} {id j h g : Nat} {f : DiskPlan → DiskPlan}

def place (n : Night) (id : Nat) : Option QueueName := n.queues.queueOf id

/-- The queues are in order and know exactly the records of the night. -/
structure Sound (n : Night) : Prop where
  valid : n.queues.Valid
  registered : n.queues.registered = n.plans.length

theorem Sound.known (hs : n.Sound) {name : QueueName} (hm : id ∈ n.queues.members name) :
    id < n.plans.length :=
  hs.registered ▸ hs.valid.known hm

theorem Sound.place_iff (hs : n.Sound) {name : QueueName} :
    n.place id = some name ↔ id ∈ n.queues.members name :=
  hs.valid.queueOf_iff

theorem Sound.lt_of_place (hs : n.Sound) {name : QueueName} (hp : n.place id = some name) :
    id < n.plans.length :=
  hs.known (hs.place_iff.mp hp)

/-- A number that no record has stands for a plan about which nothing is known. -/
theorem plan_of_le (h : n.plans.length ≤ id) : n.plan id = default := by
  simp [plan, List.getD_eq_getElem?_getD, List.getElem?_eq_none h]

/-- A number that no host has stands for a host without disks. -/
theorem host_of_le (hh : n.hosts.length ≤ h) : n.host h = default := by
  simp [host, List.getD_eq_getElem?_getD, List.getElem?_eq_none hh]

/-! ## Changing a plan -/

@[simp]
theorem queues_setPlan : (n.setPlan id f).queues = n.queues := rfl

@[simp]
theorem hosts_setPlan : (n.setPlan id f).hosts = n.hosts := rfl

@[simp]
theorem place_setPlan : (n.setPlan id f).place j = n.place j := rfl

@[simp]
theorem host_setPlan : (n.setPlan id f).host h = n.host h := rfl

@[simp]
theorem length_setPlan : (n.setPlan id f).plans.length = n.plans.length := by
  simp [setPlan]

theorem plan_setPlan_self (hid : id < n.plans.length) :
    (n.setPlan id f).plan id = f (n.plan id) := by
  simp [plan, setPlan, List.getD_eq_getElem?_getD, List.getElem?_modify_eq,
    List.getElem?_eq_getElem hid]

theorem plan_setPlan_of_ne (hj : j ≠ id) : (n.setPlan id f).plan j = n.plan j := by
  simp [plan, setPlan, List.getD_eq_getElem?_getD, hj.symm]

/-- What holds of a plan with the change and without it holds of it afterwards. -/
theorem plan_setPlan_cases {P : DiskPlan → Prop} (hf : P (f (n.plan j))) (hn : P (n.plan j)) :
    P ((n.setPlan id f).plan j) := by
  by_cases hj : j = id
  · subst hj
    by_cases hlt : j < n.plans.length
    · rwa [plan_setPlan_self hlt]
    · have hle : n.plans.length ≤ j := Nat.le_of_not_lt hlt
      rw [plan_of_le (by simpa using hle)]
      rwa [plan_of_le hle] at hn
  · rwa [plan_setPlan_of_ne hj]

/-- Only what becomes of the plan as it is counts. -/
theorem setPlan_congr {g : DiskPlan → DiskPlan} (h : f (n.plan id) = g (n.plan id)) :
    n.setPlan id f = n.setPlan id g := by
  have hp : n.plans.modify id f = n.plans.modify id g := by
    refine List.ext_getElem? fun i => ?_
    by_cases hi : id = i
    · subst hi
      rw [List.getElem?_modify_eq, List.getElem?_modify_eq]
      cases e : n.plans[id]? with
      | none => rfl
      | some p =>
        have : n.plan id = p := by simp [plan, List.getD_eq_getElem?_getD, e]
        rw [this] at h
        simp [h]
    · simp [hi]
  simp [setPlan, hp]

/-- A change that changes nothing of a plan changes nothing of the night. -/
theorem setPlan_eq_self (h : f (n.plan id) = n.plan id) : n.setPlan id f = n := by
  have hkept : n.plans.modify id (fun p => p) = n.plans := List.modify_id id n.plans
  rw [setPlan_congr (g := fun p => p) h, setPlan, hkept]

/-- One change after another is a change. -/
theorem setPlan_setPlan (g : DiskPlan → DiskPlan) :
    (n.setPlan id f).setPlan id g = n.setPlan id (g ∘ f) := by
  simp only [setPlan, List.modify_modify_eq]

/-! ## Changing a host -/

variable {fh : Host → Host}

@[simp]
theorem queues_setHost : (n.setHost h fh).queues = n.queues := rfl

@[simp]
theorem plans_setHost : (n.setHost h fh).plans = n.plans := rfl

@[simp]
theorem plan_setHost : (n.setHost h fh).plan id = n.plan id := rfl

@[simp]
theorem place_setHost : (n.setHost h fh).place id = n.place id := rfl

@[simp]
theorem length_setHost : (n.setHost h fh).hosts.length = n.hosts.length := by
  simp [setHost]

theorem setHost_setHost (gh : Host → Host) :
    (n.setHost h fh).setHost h gh = n.setHost h (gh ∘ fh) := by
  simp only [setHost, List.modify_modify_eq]

theorem host_setHost_self (hh : h < n.hosts.length) :
    (n.setHost h fh).host h = fh (n.host h) := by
  simp [host, setHost, List.getD_eq_getElem?_getD, List.getElem?_modify_eq,
    List.getElem?_eq_getElem hh]

theorem host_setHost_of_ne (hg : g ≠ h) : (n.setHost h fh).host g = n.host g := by
  simp [host, setHost, List.getD_eq_getElem?_getD, hg.symm]

/-- What holds of the host before and after the change holds of it whatever its number. -/
theorem host_setHost_cases {P : Host → Prop} (hf : P (fh (n.host h))) (hn : P (n.host h)) :
    P ((n.setHost h fh).host h) := by
  by_cases hh : h < n.hosts.length
  · rwa [host_setHost_self hh]
  · have hl : n.hosts.length ≤ h := Nat.le_of_not_lt hh
    rw [host_of_le (by simpa using hl)]
    rwa [host_of_le hl] at hn

/-! ## Changing the queues -/

def withQueues (n : Night) (q : Queues) : Night := { n with queues := q }

variable {q : Queues}

@[simp]
theorem queues_withQueues : (n.withQueues q).queues = q := rfl

@[simp]
theorem plans_withQueues : (n.withQueues q).plans = n.plans := rfl

@[simp]
theorem plan_withQueues : (n.withQueues q).plan id = n.plan id := rfl

@[simp]
theorem hosts_withQueues : (n.withQueues q).hosts = n.hosts := rfl

@[simp]
theorem host_withQueues : (n.withQueues q).host h = n.host h := rfl

@[simp]
theorem place_withQueues : (n.withQueues q).place id = q.queueOf id := rfl

def after (n : Night) (told : List Event) : Night := { n with events := n.events ++ told }

end Night

/-! ## Elementary actions that are not refused -/

namespace Planning

variable {n : Night} {id : Nat} {name target : QueueName} {reason : String}

theorem onQueues_ok {f : Queues → Except QueueFault Queues} {q : Queues}
    (h : f n.queues = .ok q) : onQueues f n = .ok () (n.withQueues q) := by
  have hq : Leads (onQueues f) n (fun _ k => k = n.withQueues q) never := by
    simp only [onQueues, leads_bind, leads_get, h]
    rfl
  obtain ⟨_, _, hok, rfl⟩ := hq.exists_ok
  exact hok

/-- Whatever is done to the queues, nothing else of the night changes, and a fault changes
nothing. -/
theorem leads_onQueues_or {f : Queues → Except QueueFault Queues} {post : Unit → Night → Prop}
    {fail : Fault → Night → Prop} (h : ∀ q, post () (n.withQueues q)) (hfail : ∀ e, fail e n) :
    Leads (onQueues f) n post fail := by
  simp only [onQueues, leads_bind, leads_get]
  split
  · exact h _
  · exact hfail _

theorem leads_onQueues {f : Queues → Except QueueFault Queues} {post : Unit → Night → Prop}
    (h : ∀ q, post () (n.withQueues q)) : Leads (onQueues f) n post anyhow :=
  leads_onQueues_or h fun _ => trivial

theorem enqueue_ok (hs : n.Sound) (hid : id < n.plans.length) (hp : n.place id = none) :
    enqueue name id n = .ok () (n.withQueues (n.queues.join name id)) :=
  onQueues_ok (Queues.enqueue_ok (hs.registered ▸ hid) hp)

theorem remove_ok (hs : n.Sound) (hp : n.place id = some name) :
    remove name id n = .ok () (n.withQueues (n.queues.leave name id)) :=
  onQueues_ok (Queues.remove_ok hs.valid (hs.place_iff.mp hp))

theorem moveTo_ok (hs : n.Sound) (hp : n.place id = some name) :
    moveTo id name target n =
      .ok () (n.withQueues ((n.queues.leave name id).join target id)) :=
  onQueues_ok (Queues.moveTo_ok hs.valid (hs.place_iff.mp hp))

end Planning

namespace Night.Sound

variable {n : Night} {id : Nat} {name target : QueueName} {ahead : Nat → Nat → Bool}

theorem setPlan (hs : n.Sound) (f : DiskPlan → DiskPlan) : (n.setPlan id f).Sound :=
  ⟨hs.valid, by simpa using hs.registered⟩

theorem setHost (hs : n.Sound) (h : Nat) (f : Host → Host) : (n.setHost h f).Sound :=
  ⟨hs.valid, hs.registered⟩

theorem join (hs : n.Sound) (hid : id < n.plans.length) (hp : n.place id = none) :
    (n.withQueues (n.queues.join name id)).Sound :=
  ⟨hs.valid.join (hs.registered ▸ hid) hp, by simpa using hs.registered⟩

theorem joinAhead (hs : n.Sound) (hid : id < n.plans.length) (hp : n.place id = none) :
    (n.withQueues (n.queues.joinAhead name ahead id)).Sound :=
  ⟨hs.valid.joinAhead (hs.registered ▸ hid) hp, by simpa using hs.registered⟩

theorem leave (hs : n.Sound) (hp : n.place id = some name) :
    (n.withQueues (n.queues.leave name id)).Sound :=
  ⟨hs.valid.leave (hs.place_iff.mp hp), by simpa using hs.registered⟩

theorem move (hs : n.Sound) (hp : n.place id = some name) :
    (n.withQueues ((n.queues.leave name id).join target id)).Sound :=
  ⟨hs.valid.move (hs.place_iff.mp hp), by simpa using hs.registered⟩

theorem place_join (hs : n.Sound) (hid : id < n.plans.length) (hp : n.place id = none) (j : Nat) :
    (n.withQueues (n.queues.join name id)).place j = if j = id then some name else n.place j :=
  hs.valid.queueOf_join (hs.registered ▸ hid) hp j

theorem place_joinAhead (hs : n.Sound) (hid : id < n.plans.length) (hp : n.place id = none)
    (j : Nat) : (n.withQueues (n.queues.joinAhead name ahead id)).place j =
      if j = id then some name else n.place j :=
  hs.valid.queueOf_joinAhead (hs.registered ▸ hid) hp j

theorem place_leave (hs : n.Sound) (hp : n.place id = some name) (j : Nat) :
    (n.withQueues (n.queues.leave name id)).place j = if j = id then none else n.place j :=
  hs.valid.queueOf_leave (hs.place_iff.mp hp) j

theorem place_move (hs : n.Sound) (hp : n.place id = some name) (j : Nat) :
    (n.withQueues ((n.queues.leave name id).join target id)).place j =
      if j = id then some target else n.place j :=
  hs.valid.queueOf_move (hs.place_iff.mp hp) j

end Night.Sound

end NightlyBackup
