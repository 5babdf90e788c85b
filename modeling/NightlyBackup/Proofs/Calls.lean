import NightlyBackup.Proofs.Queues
import Mathlib.Data.List.Induction

/-!
Calls on the queues, in any order and from whoever makes them. What six plain lists would
answer to a call and how they would change is said without links; after any sequence of
calls the queues stand for such lists, and one call on them is one call on the lists. A call
that the lists refuse leaves every link where it was.
-/

namespace NightlyBackup

inductive QueueCall
  | register
  | enqueue (name : QueueName) (id : Nat)
  | insertSorted (name : QueueName) (compare : Nat → Nat → Ordering) (id : Nat)
  | remove (name : QueueName) (id : Nat)
  | dequeue (name : QueueName)
  | moveTo (id : Nat) (source target : QueueName)

inductive QueueAnswer
  | done
  | record (id : Nat)
  | nothing
  deriving DecidableEq, Repr

namespace QueueCall

def alter (f : Queues → Except QueueFault Queues) : EStateM QueueFault Queues QueueAnswer :=
  fun q => match f q with
    | .ok q' => .ok .done q'
    | .error e => .error e q

/-- What a call does. A record is moved in two steps: a refusal of the second one would leave
the first one done. -/
def act : QueueCall → EStateM QueueFault Queues QueueAnswer
  | register => fun q => .ok (.record q.register.1) q.register.2
  | enqueue name id => alter (·.enqueue name id)
  | insertSorted name compare id =>
    alter (·.insertSorted name (fun a b => (compare a b).isLT) id)
  | remove name id => alter (·.remove name id)
  | dequeue name => fun q =>
    match q.dequeue name with
    | some (id, q') => .ok (.record id) q'
    | none => .ok .nothing q
  | moveTo id source target => do
    let _ ← alter (·.remove source id)
    alter (·.enqueue target id)

end QueueCall

def Queues.after (q : Queues) (calls : List QueueCall) : Queues :=
  calls.foldl (fun q c => match c.act q with | .ok _ q => q | .error _ q => q) q

/-! ## Six lists -/

/-- Six lists of records. The records below `known` are known. -/
structure Lists where
  known : Nat := 0
  on : QueueName → List Nat := fun _ => []

namespace Lists

def put (l : Lists) (name : QueueName) (ids : List Nat) : Lists :=
  { l with on := Function.update l.on name ids }

def listOf (l : Lists) (id : Nat) : Option QueueName :=
  QueueName.all.find? fun name => id ∈ l.on name

def notFree? (l : Lists) (id : Nat) : Option QueueFault :=
  if l.known ≤ id then some (.unknownRecord id)
  else (l.listOf id).map (.alreadyQueued id)

def notOn? (l : Lists) (name : QueueName) (id : Nat) : Option QueueFault :=
  if l.known ≤ id then some (.unknownRecord id)
  else if id ∈ l.on name then none
  else some (.notQueued id name)

end Lists

namespace QueueCall

def refusal? (l : Lists) : QueueCall → Option QueueFault
  | register | dequeue _ => none
  | enqueue _ id | insertSorted _ _ id => l.notFree? id
  | remove name id | moveTo id name _ => l.notOn? name id

def answer (l : Lists) : QueueCall → QueueAnswer
  | register => .record l.known
  | dequeue name => match (l.on name).head? with
    | some id => .record id
    | none => .nothing
  | _ => .done

def change (l : Lists) : QueueCall → Lists
  | register => { l with known := l.known + 1 }
  | enqueue name id => l.put name (l.on name ++ [id])
  | insertSorted name compare id =>
    l.put name (Queues.insertAhead (fun m => (compare id m).isLT) id (l.on name))
  | remove name id => l.put name ((l.on name).erase id)
  | dequeue name => l.put name (l.on name).tail
  | moveTo id source target =>
    let l := l.put source ((l.on source).erase id)
    l.put target (l.on target ++ [id])

end QueueCall

def Lists.after (l : Lists) (calls : List QueueCall) : Lists :=
  calls.foldl (fun l c => if (c.refusal? l).isSome then l else c.change l) l

/-! ## Agreement -/

/-- From `place` on, `step` leads through `ids` and then ends. -/
inductive Follows (step : Nat → Option Nat) : Option Nat → List Nat → Prop
  | nil : Follows step none []
  | cons {id : Nat} {ids : List Nat} (rest : Follows step (step id) ids) :
    Follows step (some id) (id :: ids)

/-- Whatever is asked of the queues, the lists give the same answer. -/
structure Queues.Agrees (q : Queues) (l : Lists) : Prop where
  registered : q.registered = l.known
  known : ∀ {name id}, id ∈ l.on name → id < l.known
  nodup : ∀ name, (l.on name).Nodup
  disjoint : ∀ {a b}, a ≠ b → (l.on a).Disjoint (l.on b)
  members : ∀ name, q.members name = l.on name
  head : ∀ name, q.head? name = (l.on name).head?
  tail : ∀ name, q.tail? name = (l.on name).getLast?
  length : ∀ name, q.length name = (l.on name).length
  queueOf : ∀ {id name}, q.queueOf id = some name ↔ id ∈ l.on name
  forward : ∀ name, Follows q.next? (q.head? name) (l.on name)
  backward : ∀ name, Follows q.prev? (q.tail? name) (l.on name).reverse
  alone : ∀ {id}, (∀ name, id ∉ l.on name) → q.next? id = none ∧ q.prev? id = none

namespace Queues

variable {q : Queues} {l : Lists} {name : QueueName} {id : Nat}

theorem Chain.follows_next {before : Option Nat} {ids : List Nat}
    (h : q.Chain name before ids none) : Follows q.next? ids.head? ids := by
  induction ids generalizing before with
  | nil => exact .nil
  | cons id rest ih =>
    have hn : q.next? id = rest.head? := by simp [next?, h.1]
    exact .cons (hn ▸ ih h.2)

theorem Chain.follows_prev {behind : Option Nat} {ids : List Nat}
    (h : q.Chain name none ids behind) : Follows q.prev? ids.getLast? ids.reverse := by
  induction ids using List.reverseRecOn generalizing behind with
  | nil => exact .nil
  | append_singleton ids id ih =>
    obtain ⟨hids, hid, -⟩ := chain_append.mp h
    have hp : q.prev? id = ids.getLast? := by simp [prev?, hid]
    rw [List.getLast?_concat, List.reverse_append]
    exact .cons (hp ▸ ih hids)

/-- The queues stand for lists. -/
structure Stands (q : Queues) (l : Lists) : Prop where
  holds : q.Holds l.on
  registered : q.registered = l.known

theorem Stands.agrees (h : q.Stands l) : q.Agrees l where
  registered := h.registered
  known hm := h.registered ▸ h.holds.known hm
  nodup := h.holds.nodup
  disjoint hne _ ha hb := hne (h.holds.apart ha hb)
  members _ := h.holds.members_eq
  head _ := h.holds.head?_eq
  tail _ := h.holds.tail?_eq
  length _ := h.holds.length_eq
  queueOf := h.holds.queueOf_iff
  forward name := h.holds.head?_eq ▸ (h.holds.chain name).follows_next
  backward name := h.holds.tail?_eq ▸ (h.holds.chain name).follows_prev
  alone hf := by simp [next?, prev?, h.holds.free hf]

namespace Stands

variable (h : q.Stands l)

include h

theorem queueOf_eq : q.queueOf id = l.listOf id := by
  cases hl : l.listOf id with
  | some name =>
    rw [h.holds.queueOf_iff]
    simpa using List.find?_some hl
  | none =>
    rw [h.holds.queueOf_eq_none_iff]
    intro name
    simpa using List.find?_eq_none.mp hl name (QueueName.mem_all name)

theorem checkFree_eq : q.checkFree id = match l.notFree? id with
    | some f => .error f
    | none => .ok () := by
  rw [checkFree, Lists.notFree?, h.registered, h.queueOf_eq]
  split
  · rfl
  · cases l.listOf id <;> rfl

theorem free (hn : l.notFree? id = none) : id < q.registered ∧ ∀ name, id ∉ l.on name := by
  rw [Lists.notFree?] at hn
  split at hn
  · cases hn
  · rename_i hk
    refine ⟨by rw [h.registered]; exact Nat.not_le.mp hk, ?_⟩
    rw [← h.holds.queueOf_eq_none_iff, h.queueOf_eq]
    exact Option.map_eq_none_iff.mp hn

theorem put {q' : Queues} {ids : List Nat} (hq : q'.Holds (Function.update l.on name ids))
    (hr : q'.registered = q.registered) : q'.Stands (l.put name ids) :=
  ⟨hq, hr.trans h.registered⟩

theorem leave (hm : id ∈ l.on name) :
    (q.leave name id).Stands (l.put name ((l.on name).erase id)) :=
  h.put (h.holds.leave hm) registered_leave

theorem remove_eq : q.remove name id = match l.notOn? name id with
    | some f => .error f
    | none => .ok (q.leave name id) := by
  rw [remove, Lists.notOn?, h.registered]
  split
  · rfl
  · by_cases hm : id ∈ l.on name
    · rw [if_pos (h.holds.queueOf_iff.mpr hm), if_pos hm]
    · rw [if_neg (mt h.holds.queueOf_iff.mp hm), if_neg hm]

omit h in
theorem notOn?_of_mem (hk : id < l.known) (hm : id ∈ l.on name) : l.notOn? name id = none := by
  rw [Lists.notOn?, if_neg (Nat.not_le.mpr hk), if_pos hm]

omit h in
theorem mem_of_notOn? (hn : l.notOn? name id = none) : id ∈ l.on name := by
  rw [Lists.notOn?] at hn
  split at hn
  · cases hn
  · split at hn
    · assumption
    · cases hn

/-- A record that has left a list can join another one. -/
theorem move (hm : id ∈ l.on name) (target : QueueName) :
    (q.leave name id).enqueue target id = .ok ((q.leave name id).join target id) ∧
      ((q.leave name id).join target id).Stands
        (QueueCall.change l (.moveTo id name target)) := by
  have hs := h.leave hm
  have hk : id < (q.leave name id).registered := by simpa using h.holds.known hm
  have hq : (q.leave name id).queueOf id = none :=
    h.holds.valid.queueOf_leave_self (h.holds.members_eq ▸ hm)
  exact ⟨enqueue_ok hk hq,
    hs.put (hs.holds.join hk (hs.holds.queueOf_eq_none_iff.mp hq)) registered_join⟩

end Stands

/-! ## One call -/

/-- One call on the queues is one call on the lists. If it is refused, nothing has changed. -/
theorem Stands.act (h : q.Stands l) (c : QueueCall) :
    match c.refusal? l with
    | some f => c.act q = .error f q
    | none => ∃ q', c.act q = .ok (c.answer l) q' ∧ q'.Stands (c.change l) := by
  cases c with
  | register =>
    refine ⟨_, ?_, h.holds.register, by simp [h.registered, QueueCall.change]⟩
    rw [QueueCall.act, QueueCall.answer, ← h.registered]
    rfl
  | enqueue name id =>
    simp only [QueueCall.refusal?, QueueCall.act, QueueCall.alter, enqueue, h.checkFree_eq]
    cases hn : l.notFree? id with
    | some f => rfl
    | none =>
      obtain ⟨hk, hf⟩ := h.free hn
      exact ⟨_, rfl, h.put (h.holds.join hk hf) registered_join⟩
  | insertSorted name compare id =>
    simp only [QueueCall.refusal?, QueueCall.act, QueueCall.alter, insertSorted, h.checkFree_eq]
    cases hn : l.notFree? id with
    | some f => rfl
    | none =>
      obtain ⟨hk, hf⟩ := h.free hn
      exact ⟨_, rfl, h.put (h.holds.joinAhead hk hf) registered_joinAhead⟩
  | remove name id =>
    simp only [QueueCall.refusal?, QueueCall.act, QueueCall.alter, h.remove_eq]
    cases hn : l.notOn? name id with
    | some f => rfl
    | none => exact ⟨_, rfl, h.leave (mem_of_notOn? hn)⟩
  | dequeue name =>
    simp only [QueueCall.refusal?, QueueCall.act, dequeue, h.holds.head?_eq, QueueCall.answer,
      QueueCall.change]
    cases hl : l.on name with
    | nil =>
      refine ⟨q, rfl, ?_⟩
      rw [List.tail_nil, Lists.put, ← hl, Function.update_eq_self]
      exact h
    | cons id rest =>
      have hm : id ∈ l.on name := by simp [hl]
      have hs := h.leave hm
      rw [hl, List.erase_cons_head] at hs
      refine ⟨q.leave name id, ?_, hs⟩
      simp [h.remove_eq, notOn?_of_mem (h.registered ▸ h.holds.known hm) hm, Except.toOption]
  | moveTo id source target =>
    simp only [QueueCall.refusal?, QueueCall.act, bind, EStateM.bind, QueueCall.alter,
      h.remove_eq]
    cases hn : l.notOn? source id with
    | some f => rfl
    | none =>
      obtain ⟨hmove, hs⟩ := h.move (mem_of_notOn? hn) target
      exact ⟨_, by simp only [hmove, QueueCall.answer], hs⟩

/-- The queues stand for lists after any calls. -/
theorem Stands.after (h : q.Stands l) (calls : List QueueCall) :
    (q.after calls).Stands (l.after calls) := by
  induction calls generalizing q l with
  | nil => exact h
  | cons c calls ih =>
    have hc := h.act c
    simp only [Queues.after, Lists.after, List.foldl_cons]
    cases hr : c.refusal? l with
    | some f =>
      rw [hr] at hc
      rw [hc]
      exact ih h
    | none =>
      rw [hr] at hc
      obtain ⟨q', hq, hs⟩ := hc
      rw [hq]
      exact ih hs

end Queues

/-- After any calls the queues agree with six lists: the members from head to tail, the two
ends and the length of each queue, the neighbours of each record and the queue that it is on
are those of the lists. The next call is refused exactly when the lists refuse it, and then
it changes nothing; otherwise it gives the answer of the lists, and the queues agree with the
lists as this call changes them. -/
theorem queues_refine_lists (calls : List QueueCall) :
    let q := Queues.after {} calls
    let l := Lists.after {} calls
    q.Agrees l ∧ ∀ c : QueueCall, match c.refusal? l with
      | some f => c.act q = .error f q
      | none => ∃ q', c.act q = .ok (c.answer l) q' ∧ q'.Agrees (c.change l) := by
  have hstart : ({} : Queues).Stands {} := ⟨Queues.holds_empty, rfl⟩
  have hs := hstart.after calls
  refine ⟨hs.agrees, fun c => ?_⟩
  have hc := hs.act c
  cases hr : c.refusal? (Lists.after {} calls) with
  | some f => rwa [hr] at hc
  | none =>
    rw [hr] at hc
    obtain ⟨q', hq, hs'⟩ := hc
    exact ⟨q', hq, hs'.agrees⟩

example :
    let q := Queues.after {} [.register, .register, .register, .enqueue .start 0,
      .enqueue .start 1, .enqueue .start 2, .remove .start 1, .enqueue .failed 0]
    q.members .start = [0, 2] ∧ q.next? 0 = some 2 ∧ q.prev? 2 = some 0 ∧ q.queueOf 1 = none := by
  decide

end NightlyBackup
