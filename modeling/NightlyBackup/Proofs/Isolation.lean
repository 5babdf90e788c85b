import NightlyBackup.Proofs.HostActions
import NightlyBackup.Proofs.Rounds

/-!
Hosts are isolated from each other. Turns that are about different hosts may come in any order:
what becomes of a host and of its disks depends on the turns about this host alone, and on their
order among themselves.
-/

namespace NightlyBackup

open Night Planning

/-! ## Visits that belong to hosts -/

def Belongs {ι : Type} (n : Night) (h : Nat) (mine : ι → Bool) (visit : ι → Planning Unit)
    (i : ι) : Prop :=
  if mine i then Confined n h (visit i) else ∃ g, g ≠ h ∧ Confined n g (visit i)

section
variable {ι : Type} {n m m' k k' : Night} {h : Nat} {mine : ι → Bool}
  {visit : ι → Planning Unit} {i : ι} {ids ids' : List ι}

theorem Belongs.later (hb : Belongs n h mine visit i) (hm : n.Later m)
    (e : visit i m = .ok () k) : n.Later k := by
  unfold Belongs at hb
  split at hb
  · exact (hb.leaves hm e).later
  · obtain ⟨g, -, hc⟩ := hb
    exact (hc.leaves hm e).later

theorem Belongs.sameFor (hb : Belongs n h mine visit i) (hi : mine i = false) (hm : n.Later m)
    (e : visit i m = .ok () k) : SameFor n h m k := by
  rw [Belongs, hi] at hb
  obtain ⟨g, hg, hc⟩ := hb
  exact (hc.leaves hm e).others hg.symm

theorem later_forM (hb : ∀ i ∈ ids, Belongs n h mine visit i) (hm : n.Later m)
    (e : ids.forM visit m = .ok () k) : n.Later k := by
  induction ids generalizing m with
  | nil =>
    cases e
    exact hm
  | cons i ids ih =>
    obtain ⟨_, l, hl, hk⟩ := ok_of_bind e
    exact ih (fun j hj => hb j (List.mem_cons_of_mem _ hj))
      ((hb i (List.mem_cons_self ..)).later hm hl) hk

/-- Visits to other hosts leave the view of the host as it was. -/
theorem sameFor_forM_others (hb : ∀ i ∈ ids, Belongs n h mine visit i)
    (hi : ∀ i ∈ ids, mine i = false) (hm : n.Later m) (e : ids.forM visit m = .ok () k) :
    SameFor n h m k := by
  induction ids generalizing m with
  | nil =>
    cases e
    exact .refl ..
  | cons i ids ih =>
    obtain ⟨_, l, hl, hk⟩ := ok_of_bind e
    have hbi := hb i (List.mem_cons_self ..)
    exact (hbi.sameFor (hi i (List.mem_cons_self ..)) hm hl).trans
      (ih (fun j hj => hb j (List.mem_cons_of_mem _ hj))
        (fun j hj => hi j (List.mem_cons_of_mem _ hj)) (hbi.later hm hl) hk)

/-- Two rounds of visits with the same visits to a host, in the same order, give the same view
of this host. -/
theorem sameFor_forM (hb : ∀ i ∈ ids, Belongs n h mine visit i)
    (hb' : ∀ i ∈ ids', Belongs n h mine visit i) (hmine : ids'.filter mine = ids.filter mine)
    (hm : n.Later m) (hm' : n.Later m') (hs : SameFor n h m m')
    (e : ids.forM visit m = .ok () k) (e' : ids'.forM visit m' = .ok () k') :
    SameFor n h k k' := by
  induction ids generalizing ids' m m' with
  | nil =>
    cases e
    have hi : ∀ i ∈ ids', mine i = false := fun i hi => by
      simpa using List.filter_eq_nil_iff.mp hmine i hi
    exact hs.trans (sameFor_forM_others hb' hi hm' e')
  | cons i ids ih =>
    obtain ⟨_, l, hl, hk⟩ := ok_of_bind e
    have hbi := hb i (List.mem_cons_self ..)
    have hrest : ∀ j ∈ ids, Belongs n h mine visit j :=
      fun j hj => hb j (List.mem_cons_of_mem _ hj)
    by_cases hi : mine i = true
    · -- Up to this visit the other round has visited other hosts.
      rw [List.filter_cons_of_pos hi] at hmine
      obtain ⟨before, after, rfl, hbefore, -, hafter⟩ := List.filter_eq_cons_iff.mp hmine
      have e' : (before ++ i :: after).forM visit m' = .ok () k' := e'
      rw [List.forM_eq_forM, List.forM_append] at e'
      obtain ⟨_, o, ho, e'⟩ := ok_of_bind e'
      obtain ⟨_, l', hl', hk'⟩ := ok_of_bind e'
      have hb'' : ∀ j ∈ before, Belongs n h mine visit j :=
        fun j hj => hb' j (List.mem_append_left _ hj)
      have hmo := later_forM hb'' hm' ho
      have hso := sameFor_forM_others hb'' (fun j hj => by simpa using hbefore j hj) hm' ho
      have hc : Confined n h (visit i) := by simpa [Belongs, hi] using hbi
      refine ih hrest (fun j hj => hb' j ?_) hafter (hbi.later hm hl) (hbi.later hmo hl')
        (hc.twin hm hmo (hs.trans hso) hl hl').2 hk hk'
      exact List.mem_append_right _ (List.mem_cons_of_mem _ hj)
    · have hi : mine i = false := by simpa using hi
      rw [List.filter_cons_of_neg (by simp [hi])] at hmine
      exact ih hrest hb' hmine (hbi.later hm hl) hm' ((hbi.sameFor hi hm hl).symm.trans hs) hk e'
end

/-! ## Turns -/

def Turn.host? : Turn → Option Nat
  | .ask h | .packet h _ | .fault h _ => some h
  | .callOff => none

def Turn.about (h : Nat) (turn : Turn) : Bool := turn.host? = some h

namespace Planning

variable {n m m' k k' : Night} {h : Nat}

theorem confined_act (hn : n.Hosted) {turn : Turn} (ht : turn.host? = some h) :
    Confined n h turn.act := by
  cases turn with
  | ask g =>
    cases ht
    exact confined_request hn
  | packet g p =>
    cases ht
    exact .bind (confined_onReply hn p) fun _ => .pure _
  | fault g f =>
    cases ht
    exact .bind (confined_onTransportFault hn f) fun _ => .pure _
  | callOff => cases ht

theorem belongs_turn (hn : n.Hosted) (h : Nat) {turn : Turn} (ht : turn ≠ .callOff) :
    Belongs n h (Turn.about h) (fun turn => do let _ ← turn.act) turn := by
  obtain ⟨g, hg⟩ : ∃ g, turn.host? = some g := by
    cases turn with
    | ask g => exact ⟨g, rfl⟩
    | packet g p => exact ⟨g, rfl⟩
    | fault g f => exact ⟨g, rfl⟩
    | callOff => exact absurd rfl ht
  have hc : Confined n g (do let _ ← turn.act) := .bind (confined_act hn hg) fun _ => .pure _
  unfold Belongs Turn.about
  split
  · rename_i hh
    rw [hg] at hh
    cases of_decide_eq_true hh
    exact hc
  · rename_i hh
    exact ⟨g, fun e => hh (by simp [hg, e]), hc⟩

/-! ## The last disks -/

theorem belongs_close {close : Nat → Planning Unit}
    (hc : ∀ {g id}, (n.plan id).host = g → Confined n g (close id)) (h id : Nat) :
    Belongs n h (fun id => (n.plan id).host = h) close id := by
  unfold Belongs
  split
  · rename_i hid
    exact hc (of_decide_eq_true hid)
  · rename_i hid
    exact ⟨_, fun e => hid (decide_eq_true e), hc rfl⟩

theorem sameFor_close {close : Nat → Planning Unit} {name : QueueName}
    (hc : ∀ {g id}, (n.plan id).host = g → Confined n g (close id))
    (hm : n.Later m) (hm' : n.Later m') (hs : SameFor n h m m')
    (e : (m.queues.members name).forM close m = .ok () k)
    (e' : (m'.queues.members name).forM close m' = .ok () k') :
    n.Later k ∧ n.Later k' ∧ SameFor n h k k' := by
  have hb : ∀ id, Belongs n h (fun id => (n.plan id).host = h) close id := belongs_close hc h
  exact ⟨later_forM (fun id _ => hb id) hm e, later_forM (fun id _ => hb id) hm' e',
    sameFor_forM (fun id _ => hb id) (fun id _ => hb id) (hs.order name) hm hm' hs e e'⟩

theorem sameFor_finish (hm : n.Later m) (hm' : n.Later m') (hs : SameFor n h m m')
    (e : finish m = .ok () k) (e' : finish m' = .ok () k') :
    n.Later k ∧ n.Later k' ∧ SameFor n h k k' := by
  obtain ⟨_, l, hl, e⟩ := ok_of_bind (ok_of_get e)
  obtain ⟨_, l', hl', e'⟩ := ok_of_bind (ok_of_get e')
  obtain ⟨hm, hm', hs⟩ := sameFor_close confined_strand hm hm' hs hl hl'
  obtain ⟨_, o, ho, e⟩ := ok_of_bind (ok_of_get e)
  obtain ⟨_, o', ho', e'⟩ := ok_of_bind (ok_of_get e')
  obtain ⟨hm, hm', hs⟩ := sameFor_close confined_closePartial hm hm' hs ho ho'
  exact sameFor_close confined_closeUnasked hm hm' hs (ok_of_get e) (ok_of_get e')

end Planning

/-! ## All hosts -/

/-- Two states of the night `n` that differ at most in what was told and sent, and in how the
disks of different hosts follow one another on the queues. -/
structure SameRecords (n m k : Night) : Prop where
  plans : k.plans = m.plans
  hosts : k.hosts = m.hosts
  place : ∀ id, k.place id = m.place id
  order : ∀ h name, n.ofHost h (k.queues.members name) = n.ofHost h (m.queues.members name)

theorem sameRecords {n m k : Night} (hm : n.Later m) (hk : n.Later k)
    (hs : ∀ h, SameFor n h m k) : SameRecords n m k := by
  have hplans : k.plans.length = m.plans.length := hk.same.length.trans hm.same.length.symm
  have hhosts : k.hosts.length = m.hosts.length := hk.same.hosts.trans hm.same.hosts.symm
  refine ⟨List.ext_getElem hplans fun id hid hid' => ?_,
    List.ext_getElem hhosts fun h hh hh' => ?_, fun id => (hs _).queueOf hm hk rfl,
    fun h => (hs h).order⟩
  · have hp : k.plan id = m.plan id := (hs _).plan rfl
    simpa [plan, hid, hid'] using hp
  · have hp : k.host h = m.host h := (hs h).host
    simpa [host, hh, hh'] using hp

/-- **Isolated hosts.** No turn ends in a fault. What becomes of a host and its disks is the
same whenever the turns about this host are the same, whatever the other hosts say and however
the turns are interleaved: after the turns as well as when the last disks have been resolved. So
two interleavings of the same turns of every host lead to the same plans and the same hosts, with
the disks of each host in the same order on every queue. -/
theorem hosts_isolated {s : Settings} {disks : List Disk} {r : Rotation} {today : Int}
    {store : Store} {n₀ n : Night} (hbegin : Night.begin s disks r today = .ok n₀)
    (hprepare : prepareAll store n₀ = .ok () n) (turns turns' : List Turn)
    (hturns : ∀ turn ∈ turns ++ turns', turn ≠ .callOff) :
    ∃ m m' k k', takeTurns turns n = .ok () m ∧ takeTurns turns' n = .ok () m' ∧
      finish m = .ok () k ∧ finish m' = .ok () k' ∧
      (∀ h, turns'.filter (Turn.about h) = turns.filter (Turn.about h) →
        SameFor n h m m' ∧ SameFor n h k k') ∧
      ((∀ h, turns'.filter (Turn.about h) = turns.filter (Turn.about h)) →
        SameRecords n m m' ∧ SameRecords n k k') := by
  obtain ⟨hsetUp, hn, hc⟩ := conversing_of_prepared hbegin hprepare
  have hlater : n.Later n := ⟨hsetUp.sound, .refl n⟩
  obtain ⟨_, m, hm, hcm⟩ := (leads_takeTurns (conversing_kept hn) hc turns).exists_ok
  obtain ⟨_, m', hm', hcm'⟩ := (leads_takeTurns (conversing_kept hn) hc turns').exists_ok
  obtain ⟨_, k, hk, hck⟩ := (leads_finish hcm).exists_ok
  obtain ⟨_, k', hk', hck'⟩ := (leads_finish hcm').exists_ok
  have hone : ∀ h, turns'.filter (Turn.about h) = turns.filter (Turn.about h) →
      SameFor n h m m' ∧ SameFor n h k k' := by
    intro h hmine
    have hs := sameFor_forM
      (fun turn ht => belongs_turn hn h (hturns turn (List.mem_append_left _ ht)))
      (fun turn ht => belongs_turn hn h (hturns turn (List.mem_append_right _ ht)))
      hmine hlater hlater (.refl n h n) hm hm'
    exact ⟨hs, (sameFor_finish ⟨hcm.sound, hcm.same⟩ ⟨hcm'.sound, hcm'.same⟩ hs hk hk').2.2⟩
  refine ⟨m, m', k, k', hm, hm', hk, hk', hone, fun hall => ⟨?_, ?_⟩⟩
  · exact sameRecords ⟨hcm.sound, hcm.same⟩ ⟨hcm'.sound, hcm'.same⟩ fun h => (hone h (hall h)).1
  · exact sameRecords ⟨hck.sound, hck.same⟩ ⟨hck'.sound, hck'.same⟩ fun h => (hone h (hall h)).2

/-- Two hosts: one is asked and its time runs out, the other one answers the first question and
is asked for its sizes. -/
theorem hosts_isolated_of_two : ∃ n₀ n m m' k k',
    Night.begin {} [Disk.plain "alpha" "/home" 10 default, Disk.plain "beta" "/srv" 10 default]
      default 0 = .ok n₀ ∧ prepareAll {} n₀ = .ok () n ∧
    takeTurns [.ask 0, .ask 1, .packet 1 ⟨.rep, ""⟩, .fault 0 .timeout, .ask 1] n = .ok () m ∧
    takeTurns [.ask 1, .packet 1 ⟨.rep, ""⟩, .ask 1, .ask 0, .fault 0 .timeout] n = .ok () m' ∧
    finish m = .ok () k ∧ finish m' = .ok () k' ∧
    SameRecords n m m' ∧ SameRecords n k k' := by
  obtain ⟨n₀, hbegin⟩ : ∃ n₀, Night.begin {} [Disk.plain "alpha" "/home" 10 default,
      Disk.plain "beta" "/srv" 10 default] default 0 = .ok n₀ := ⟨_, rfl⟩
  obtain ⟨n, hprepare⟩ : ∃ n, prepareAll {} n₀ = .ok () n := by
    rcases (leads_prepareAll (fresh_of_begin hbegin) {}).outcome with
      ⟨_, n, hprepare, -⟩ | ⟨_, _, -, _, _, _, hread, -⟩
    · exact ⟨n, hprepare⟩
    · cases hread
  obtain ⟨m, m', k, k', hm, hm', hk, hk', -, hall⟩ := hosts_isolated hbegin hprepare
    [.ask 0, .ask 1, .packet 1 ⟨.rep, ""⟩, .fault 0 .timeout, .ask 1]
    [.ask 1, .packet 1 ⟨.rep, ""⟩, .ask 1, .ask 0, .fault 0 .timeout] (by simp)
  refine ⟨n₀, n, m, m', k, k', hbegin, hprepare, hm, hm', hk, hk', hall fun h => ?_⟩
  by_cases h0 : h = 0
  · subst h0
    rfl
  · by_cases h1 : h = 1
    · subst h1
      rfl
    · simp [Turn.about, Turn.host?, Ne.symm h0, Ne.symm h1]

end NightlyBackup
