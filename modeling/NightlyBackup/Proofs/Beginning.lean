import NightlyBackup.Proofs.Records

/-!
The night as it begins: every disk that takes part has a record, in the order of the disk
list; every record is known to exactly one host, and stands on no queue yet.
-/

namespace NightlyBackup.Night

variable {n m : Night} {id h g : Nat} {d : Disk} {name : String}

def title (n : Night) (id : Nat) : String × String := (n.hostName id, n.diskName id)

/-- Hosts and plans belong together: a host knows the records of its disks and no others. -/
structure Hosted (n : Night) : Prop where
  nodup : ∀ h, (n.host h).disks.Nodup
  owner : ∀ {h id}, id ∈ (n.host h).disks → id < n.plans.length ∧ (n.plan id).host = h
  listed : ∀ {id}, id < n.plans.length →
    (n.plan id).host < n.hosts.length ∧ id ∈ (n.host (n.plan id).host).disks

/-- The disks and hosts of `m` are those of `n`, whatever has become of them. -/
structure SameDisks (n m : Night) : Prop where
  length : m.plans.length = n.plans.length
  owner : ∀ id, (m.plan id).host = (n.plan id).host
  diskName : ∀ id, (m.plan id).disk.name = (n.plan id).disk.name
  hosts : m.hosts.length = n.hosts.length
  hostName : ∀ h, (m.host h).name = (n.host h).name
  disks : ∀ h, (m.host h).disks = (n.host h).disks

namespace SameDisks

theorem refl (n : Night) : n.SameDisks n :=
  ⟨rfl, fun _ => rfl, fun _ => rfl, rfl, fun _ => rfl, fun _ => rfl⟩

theorem trans {k : Night} (hnm : n.SameDisks m) (hmk : m.SameDisks k) : n.SameDisks k :=
  ⟨hmk.length.trans hnm.length, fun id => (hmk.owner id).trans (hnm.owner id),
    fun id => (hmk.diskName id).trans (hnm.diskName id), hmk.hosts.trans hnm.hosts,
    fun h => (hmk.hostName h).trans (hnm.hostName h), fun h => (hmk.disks h).trans (hnm.disks h)⟩

theorem hosted (hnm : n.SameDisks m) (hn : n.Hosted) : m.Hosted := by
  refine ⟨?_, ?_, ?_⟩
  · intro h
    rw [hnm.disks]
    exact hn.nodup h
  · intro h id hi
    rw [hnm.disks] at hi
    rw [hnm.length, hnm.owner]
    exact hn.owner hi
  · intro id hid
    rw [hnm.length] at hid
    rw [hnm.owner, hnm.hosts, hnm.disks]
    exact hn.listed hid

theorem title (hnm : n.SameDisks m) (id : Nat) : m.title id = n.title id := by
  simp only [Night.title, Night.hostName, Night.diskName, hnm.owner, hnm.hostName, hnm.diskName]

theorem titles (hnm : n.SameDisks m) : m.records.map m.title = n.records.map n.title := by
  have ht : m.title = n.title := funext hnm.title
  rw [ht, records, records, hnm.length]

end SameDisks

structure Fresh (n : Night) (disks : List Disk) : Prop where
  sound : n.Sound
  hosted : n.Hosted
  titles : n.records.map n.title = disks.map fun d => (d.host, d.name)
  place : ∀ id, n.place id = none
  progress : ∀ id, (n.plan id).progress = .ready
  levels : ∀ id, (n.plan id).levels = []
  state : ∀ h, (n.host h).state = .ready
  features : ∀ h, (n.host h).features = none
  skipped : n.skipped = []

theorem fresh_of_empty (hp : n.plans = []) (hh : n.hosts = []) (hq : n.queues = {})
    (hk : n.skipped = []) : n.Fresh [] := by
  have hhost : ∀ h, n.host h = default := fun h => host_of_le (by simp [hh])
  have hplan : ∀ id, n.plan id = default := fun id => plan_of_le (by simp [hp])
  have hv : n.queues.Holds fun _ => [] := hq ▸ Queues.holds_empty
  refine ⟨⟨hv.valid, ?_⟩, ⟨?_, ?_, ?_⟩, ?_, ?_, ?_, ?_, ?_, ?_, hk⟩
  · simp [hq, hp, Queues.registered]
  · intro h
    simp [hhost, default, instInhabitedHost.default]
  · intro h id hm
    simp [hhost, default, instInhabitedHost.default] at hm
  · intro id hid
    simp [hp] at hid
  · simp [records, hp]
  · intro id
    exact hv.queueOf_eq_none_iff.mpr fun name => List.not_mem_nil
  · intro id
    rw [hplan]
    rfl
  · intro id
    rw [hplan]
    rfl
  · intro h
    rw [hhost]
    rfl
  · intro h
    rw [hhost]
    rfl

/-! ## Taking a disk in -/

/-- A host that is entered has its name, and the hosts before it are as they were. -/
theorem enterHost_spec (n : Night) (name : String) :
    ∃ hosts, (n.enterHost name).2 = { n with hosts := hosts } ∧
      (n.enterHost name).1 < hosts.length ∧ n.hosts.length ≤ hosts.length ∧
      ((n.enterHost name).2.host (n.enterHost name).1).name = name ∧
      ∀ g, ((n.enterHost name).2.host g).disks = (n.host g).disks ∧
        ((n.enterHost name).2.host g).state = (n.host g).state ∧
        ((n.enterHost name).2.host g).features = (n.host g).features ∧
        (g < n.hosts.length → ((n.enterHost name).2.host g).name = (n.host g).name) := by
  unfold enterHost
  cases e : n.hosts.findIdx? (·.name = name) with
  | some h =>
    obtain ⟨hlt, hname, _⟩ := List.findIdx?_eq_some_iff_getElem.mp e
    refine ⟨n.hosts, rfl, hlt, Nat.le_refl _, ?_, fun _ => ⟨rfl, rfl, rfl, fun _ => rfl⟩⟩
    simpa [host, List.getD_eq_getElem?_getD, List.getElem?_eq_getElem hlt] using hname
  | none =>
    refine ⟨n.hosts ++ [{ name := name }], rfl, by simp, by simp, ?_, fun g => ?_⟩
    · simp [host, List.getD_eq_getElem?_getD]
    · rcases Nat.lt_trichotomy g n.hosts.length with hg | hg | hg
      · simp [host, List.getD_eq_getElem?_getD, List.getElem?_append_left hg]
      · subst hg
        simp [host, List.getD_eq_getElem?_getD, default, instInhabitedHost.default]
      · have hn : n.host g = default := host_of_le (Nat.le_of_lt hg)
        have hm := host_of_le (n := { n with hosts := n.hosts ++ [{ name := name }] }) (h := g)
          (by simp; omega)
        exact ⟨by rw [hm, hn], by rw [hm, hn], by rw [hm, hn],
          fun hlt => absurd hlt (Nat.lt_asymm hg)⟩

structure Entered (n m : Night) (d : Disk) (h : Nat) : Prop where
  plans : m.plans = n.plans ++ [DiskPlan.ofDisk d h]
  queues : m.queues = n.queues.register.2
  length_le : n.hosts.length ≤ m.hosts.length
  host_lt : h < m.hosts.length
  host_name : (m.host h).name = d.host
  host_disks : (m.host h).disks = (n.host h).disks ++ [n.queues.registered]
  other_disks : ∀ {g}, g ≠ h → (m.host g).disks = (n.host g).disks
  names : ∀ {g}, g < n.hosts.length → (m.host g).name = (n.host g).name
  state : ∀ g, (m.host g).state = (n.host g).state
  features : ∀ g, (m.host g).features = (n.host g).features
  skipped : m.skipped = n.skipped

theorem enterDisk_entered (n : Night) (d : Disk) : ∃ h, Entered n (n.enterDisk d) d h := by
  obtain ⟨hosts, hm, hlt, hle, hname, hold⟩ := enterHost_spec n d.host
  refine ⟨(n.enterHost d.host).1, ?_⟩
  obtain ⟨⟨h, e⟩, he⟩ : ∃ x, n.enterHost d.host = x := ⟨_, rfl⟩
  simp only [he] at hm hlt hname hold
  simp only [Night.enterDisk, he]
  have hhosts : e.hosts = hosts := by rw [hm]
  have hplans : e.plans = n.plans := by rw [hm]
  have hqueues : e.queues = n.queues := by rw [hm]
  have hskipped : e.skipped = n.skipped := by rw [hm]
  rw [← hhosts] at hlt hle
  refine ⟨congrArg (· ++ _) hplans, congrArg (·.register.2) hqueues, ?_, ?_, ?_, ?_, ?_, ?_,
    fun g => ?_, fun g => ?_, hskipped⟩
  · exact Nat.le_trans hle (Nat.le_of_eq (length_setHost (n := e)).symm)
  · exact Nat.lt_of_lt_of_eq hlt (length_setHost (n := e)).symm
  · exact (congrArg Host.name (host_setHost_self hlt)).trans hname
  · refine (congrArg Host.disks (host_setHost_self hlt)).trans ?_
    rw [← hqueues, ← (hold h).1]
    rfl
  · intro g hg
    exact (congrArg Host.disks (host_setHost_of_ne (n := e) hg)).trans (hold g).1
  · intro g hg
    by_cases hgh : g = h
    · subst hgh
      exact (congrArg Host.name (host_setHost_self hlt)).trans ((hold g).2.2.2 hg)
    · exact (congrArg Host.name (host_setHost_of_ne (n := e) hgh)).trans ((hold g).2.2.2 hg)
  · by_cases hgh : g = h
    · subst hgh
      exact (congrArg Host.state (host_setHost_self hlt)).trans (hold g).2.1
    · exact (congrArg Host.state (host_setHost_of_ne (n := e) hgh)).trans (hold g).2.1
  · by_cases hgh : g = h
    · subst hgh
      exact (congrArg Host.features (host_setHost_self hlt)).trans (hold g).2.2.1
    · exact (congrArg Host.features (host_setHost_of_ne (n := e) hgh)).trans (hold g).2.2.1

namespace Entered

variable {disks : List Disk}

theorem length (he : Entered n m d h) : m.plans.length = n.plans.length + 1 := by
  simp [he.plans]

theorem place (he : Entered n m d h) (id : Nat) : m.place id = n.place id := by
  simp only [Night.place, Queues.queueOf, he.queues, Queues.link_register]

theorem plan_old (he : Entered n m d h) (hid : id < n.plans.length) : m.plan id = n.plan id := by
  simp [plan, he.plans, List.getD_eq_getElem?_getD, List.getElem?_append_left hid]

theorem plan_new (he : Entered n m d h) : m.plan n.plans.length = DiskPlan.ofDisk d h := by
  simp [plan, he.plans, List.getD_eq_getElem?_getD]

/-- What holds of the plans so far, of the new one and of none holds of all plans. -/
theorem plan_cases {P : DiskPlan → Prop} (he : Entered n m d h) (hold : ∀ id, P (n.plan id))
    (hnew : P (DiskPlan.ofDisk d h)) (hnone : P default) (id : Nat) : P (m.plan id) := by
  rcases Nat.lt_trichotomy id n.plans.length with hi | hi | hi
  · rw [he.plan_old hi]
    exact hold id
  · rw [hi, he.plan_new]
    exact hnew
  · rwa [plan_of_le (by rw [he.length]; omega)]

theorem sound (he : Entered n m d h) (hn : n.Sound) : m.Sound := by
  refine ⟨?_, ?_⟩
  · rw [he.queues]
    exact (Queues.Holds.register hn.valid).valid
  · rw [he.queues, Queues.registered_register, he.length, hn.registered]

theorem hosted (he : Entered n m d h) (hn : n.Sound) (hh : n.Hosted) : m.Hosted := by
  have hold : ∀ {g id}, id ∈ (n.host g).disks → id < m.plans.length ∧ (m.plan id).host = g := by
    intro g id hi
    obtain ⟨hid, hg⟩ := hh.owner hi
    exact ⟨by rw [he.length]; omega, by rw [he.plan_old hid, hg]⟩
  refine ⟨?_, ?_, ?_⟩
  · intro g
    by_cases hg : g = h
    · subst hg
      rw [he.host_disks, List.nodup_append]
      refine ⟨hh.nodup g, by simp, ?_⟩
      intro a ha b hb e
      rw [e, List.mem_singleton.mp hb, hn.registered] at ha
      exact absurd (hh.owner ha).1 (Nat.lt_irrefl _)
    · rw [he.other_disks hg]
      exact hh.nodup g
  · intro g id hi
    by_cases hg : g = h
    · subst hg
      rw [he.host_disks] at hi
      rcases List.mem_append.mp hi with hi | hi
      · exact hold hi
      · rw [List.mem_singleton.mp hi, hn.registered, he.plan_new, he.length]
        exact ⟨Nat.lt_succ_self _, rfl⟩
    · rw [he.other_disks hg] at hi
      exact hold hi
  · intro id hid
    by_cases hi : id < n.plans.length
    · obtain ⟨hlt, hmem⟩ := hh.listed hi
      rw [he.plan_old hi]
      refine ⟨Nat.lt_of_lt_of_le hlt he.length_le, ?_⟩
      by_cases hg : (n.plan id).host = h
      · rw [hg, he.host_disks]
        exact List.mem_append_left _ (hg ▸ hmem)
      · rw [he.other_disks hg]
        exact hmem
    · have hlast : id = n.plans.length := by rw [he.length] at hid; omega
      subst hlast
      rw [he.plan_new, show (DiskPlan.ofDisk d h).host = h from rfl, he.host_disks, hn.registered]
      exact ⟨he.host_lt, List.mem_append_right _ (List.mem_singleton.mpr rfl)⟩

theorem titles (he : Entered n m d h) (hh : n.Hosted) :
    m.records.map m.title = n.records.map n.title ++ [(d.host, d.name)] := by
  have hnew : m.title n.plans.length = (d.host, d.name) := by
    simp only [title, hostName, diskName, he.plan_new, DiskPlan.ofDisk, he.host_name]
  have hold : ∀ id ∈ n.records, m.title id = n.title id := by
    intro id hi
    have hid : id < n.plans.length := by simpa [records] using hi
    simp only [title, hostName, diskName, he.plan_old hid, he.names (hh.listed hid).1]
  have hrecords : m.records = n.records ++ [n.plans.length] := by
    rw [records, he.length, List.range_succ]
    rfl
  rw [hrecords, List.map_append, List.map_singleton, hnew, List.map_congr_left hold]

theorem fresh (he : Entered n m d h) (hn : n.Fresh disks) : m.Fresh (disks ++ [d]) where
  sound := he.sound hn.sound
  hosted := he.hosted hn.sound hn.hosted
  titles := by rw [he.titles hn.hosted, hn.titles, List.map_append, List.map_singleton]
  place := fun id => (he.place id).trans (hn.place id)
  progress := he.plan_cases (P := fun p => p.progress = .ready) hn.progress rfl rfl
  levels := he.plan_cases (P := fun p => p.levels = []) hn.levels rfl rfl
  state := fun g => (he.state g).trans (hn.state g)
  features := fun g => (he.features g).trans (hn.features g)
  skipped := he.skipped.trans hn.skipped

end Entered

theorem Fresh.foldl_enterDisk {disks : List Disk} (hn : n.Fresh disks) (more : List Disk) :
    (more.foldl Night.enterDisk n).Fresh (disks ++ more) := by
  induction more generalizing n disks with
  | nil => simpa using hn
  | cons d more ih =>
    obtain ⟨h, he⟩ := enterDisk_entered n d
    simpa using ih (he.fresh hn)

/-- A night begins fresh, with a record for every disk that takes part. -/
theorem fresh_of_begin {s : Settings} {disks : List Disk} {r : Rotation} {today : Int}
    (h : Night.begin s disks r today = .ok n) : n.Fresh (disks.filter (·.todo)) := by
  simp only [Night.begin] at h
  split at h
  · cases h
  · split at h
    · cases h
    · cases h
      simpa using (fresh_of_empty rfl rfl rfl rfl).foldl_enterDisk (disks.filter (·.todo))

end NightlyBackup.Night
