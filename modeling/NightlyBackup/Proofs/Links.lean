import NightlyBackup.Queues
import Mathlib.Data.List.Perm.Subperm
import Mathlib.Logic.Function.Basic

/-!
Links and lists. A queue is a chain of links with two ends. The chain of a list says what
the link of each member is; a record that joins or leaves changes the links of its two
neighbours, and the ends where it has no neighbour. From this the queues as a whole stand for
six lists of records: a record that joins is put between the two parts of its list, and one
that leaves closes the gap.
-/

namespace NightlyBackup

@[simp]
theorem QueueName.index_inj {a b : QueueName} : a.index = b.index ↔ a = b := by
  cases a <;> cases b <;> decide

namespace Queues

variable {q q' : Queues} {id j : Nat} {name other : QueueName} {ids l r : List Nat}
  {before behind x y : Option Nat} {lists : QueueName → List Nat}

/-! ## Looking at what was set -/

@[simp]
theorem registered_setLink {f : Link → Link} :
    (q.setLink id f).registered = q.registered := by
  simp [setLink, registered]

@[simp]
theorem registered_setEnds {f : Ends → Ends} :
    (q.setEnds name f).registered = q.registered := rfl

@[simp]
theorem endsOf_setLink {f : Link → Link} : (q.setLink id f).endsOf name = q.endsOf name := rfl

@[simp]
theorem link_setEnds {f : Ends → Ends} : (q.setEnds name f).link j = q.link j := rfl

@[simp]
theorem endsOf_setEnds {f : Ends → Ends} :
    (q.setEnds name f).endsOf other =
      if other = name then f (q.endsOf name) else q.endsOf other := by
  split
  · rename_i e
    subst e
    simp [setEnds, endsOf]
  · rename_i e
    have : name.index.val ≠ other.index.val := by
      rw [ne_eq, Fin.val_inj, QueueName.index_inj]
      exact fun h => e h.symm
    simp [setEnds, endsOf, Vector.getElem_set_ne _ _ this]

theorem link_setLink {f : Link → Link} (hk : id < q.registered) (j : Nat) :
    (q.setLink id f).link j = if j = id then f (q.link id) else q.link j := by
  simp only [link, setLink, List.getD_eq_getElem?_getD, List.getElem?_modify]
  split
  · rename_i e
    subst e
    simp [List.getElem?_eq_getElem (show id < q.links.length from hk)]
  · rename_i e
    simp [Ne.symm e]

@[simp]
theorem registered_register : q.register.2.registered = q.registered + 1 := by
  simp [register, registered]

theorem link_register (j : Nat) : q.register.2.link j = q.link j := by
  simp only [register, link, List.getD_eq_getElem?_getD, List.getElem?_append]
  split
  · rfl
  · rename_i hj
    rw [List.getElem?_eq_none (Nat.not_lt.mp hj)]
    cases j - q.links.length <;> rfl

@[simp]
theorem registered_setNext : (q.setNext name before x).registered = q.registered := by
  cases before <;> simp [setNext]

@[simp]
theorem registered_setPrev : (q.setPrev name behind x).registered = q.registered := by
  cases behind <;> simp [setPrev]

theorem link_setNext (hk : ∀ b ∈ before, b < q.registered) (j : Nat) :
    (q.setNext name before x).link j =
      { q.link j with next := if before = some j then x else (q.link j).next } := by
  cases before with
  | none => simp [setNext]
  | some b =>
    rw [setNext, link_setLink (hk b rfl)]
    by_cases e : j = b
    · simp [e]
    · simp [e, Ne.symm e]

theorem link_setPrev (hk : ∀ b ∈ behind, b < q.registered) (j : Nat) :
    (q.setPrev name behind x).link j =
      { q.link j with prev := if behind = some j then x else (q.link j).prev } := by
  cases behind with
  | none => simp [setPrev]
  | some b =>
    rw [setPrev, link_setLink (hk b rfl)]
    by_cases e : j = b
    · simp [e]
    · simp [e, Ne.symm e]

theorem endsOf_setNext :
    (q.setNext name before x).endsOf other =
      if other = name ∧ before = none then { q.endsOf name with head := x }
      else q.endsOf other := by
  cases before <;> simp [setNext]

theorem endsOf_setPrev :
    (q.setPrev name behind x).endsOf other =
      if other = name ∧ behind = none then { q.endsOf name with tail := x }
      else q.endsOf other := by
  cases behind <;> simp [setPrev]

/-! ## Joining and leaving

A record that joins or leaves gets a link of its own. Of the other links only those to the
place where it joins or leaves change. -/

@[simp]
theorem registered_join : (q.join name id).registered = q.registered := by
  rw [join]
  cases q.tail? name <;> simp

theorem endsOf_join :
    (q.join name id).endsOf other =
      if other = name then
        ⟨some ((q.head? name).getD id), some id, q.length name + 1⟩
      else q.endsOf other := by
  rw [join]
  cases q.tail? name <;> simp [head?, length]

theorem link_join (hk : id < q.registered) (ht : ∀ t ∈ q.tail? name, t < q.registered) (j : Nat) :
    (q.join name id).link j =
      if j = id then ⟨some name, q.tail? name, none⟩
      else { q.link j with
        next := if q.tail? name = some j then some id else (q.link j).next } := by
  rw [join]
  cases h : q.tail? name with
  | none =>
    rw [link_setLink (by simpa using hk), link_setEnds]
    simp
  | some last =>
    rw [link_setLink (by simpa using hk), link_setLink (by simpa using ht last h), link_setEnds]
    by_cases e : j = last
    · simp [e]
    · simp [e, Ne.symm e]

@[simp]
theorem registered_joinBefore {next : Nat} :
    (q.joinBefore name id next).registered = q.registered := by
  simp [joinBefore]

theorem endsOf_joinBefore {next : Nat} :
    (q.joinBefore name id next).endsOf other =
      if other = name then
        ⟨if q.prev? next = none then some id else q.head? name, q.tail? name, q.length name + 1⟩
      else q.endsOf other := by
  by_cases e : other = name
  · subst e
    cases h : q.prev? next <;>
      simp [joinBefore, endsOf_setNext, endsOf_setPrev, h, head?, tail?, length]
  · simp [joinBefore, endsOf_setNext, endsOf_setPrev, e]

theorem link_joinBefore {next : Nat} (hk : id < q.registered) (hn : next < q.registered)
    (hp : ∀ p ∈ q.prev? next, p < q.registered) (hid : q.prev? next ≠ some id ∧ next ≠ id)
    (j : Nat) :
    (q.joinBefore name id next).link j =
      if j = id then ⟨some name, q.prev? next, some next⟩
      else { q.link j with
        prev := if next = j then some id else (q.link j).prev
        next := if q.prev? next = some j then some id else (q.link j).next } := by
  rw [joinBefore, link_setEnds, link_setNext (by simpa using hp),
    link_setPrev (by simpa using hn), link_setLink hk]
  by_cases e : j = id
  · subst e
    simp [hid]
  · simp [e]

@[simp]
theorem registered_leave : (q.leave name id).registered = q.registered := by
  simp [leave]

theorem endsOf_leave :
    (q.leave name id).endsOf other =
      if other = name then
        ⟨if q.prev? id = none then q.next? id else q.head? name,
          if q.next? id = none then q.prev? id else q.tail? name, q.length name - 1⟩
      else q.endsOf other := by
  by_cases e : other = name
  · subst e
    cases hp : q.prev? id <;> cases hn : q.next? id <;>
      simp_all [leave, endsOf_setNext, endsOf_setPrev, prev?, next?, head?, tail?, length]
  · simp [leave, endsOf_setNext, endsOf_setPrev, e]

theorem link_leave (hk : id < q.registered) (hp : ∀ p ∈ q.prev? id, p < q.registered)
    (hn : ∀ n ∈ q.next? id, n < q.registered) (j : Nat) :
    (q.leave name id).link j =
      if j = id then {}
      else { q.link j with
        prev := if q.next? id = some j then q.prev? id else (q.link j).prev
        next := if q.prev? id = some j then q.next? id else (q.link j).next } := by
  rw [leave, link_setLink (by simpa using hk), link_setEnds, link_setPrev (by simpa using! hn),
    link_setNext (by simpa using! hp)]
  rfl

/-! ## Chains -/

/-- The links of `ids` are those of consecutive members of `name`, with `before` in front of
the first one and `behind` behind the last one. -/
def Chain (q : Queues) (name : QueueName) :
    (before : Option Nat) → (ids : List Nat) → (behind : Option Nat) → Prop
  | _, [], _ => True
  | before, id :: rest, behind =>
    q.link id = ⟨some name, before, rest.head?.or behind⟩ ∧ q.Chain name (some id) rest behind

theorem chain_append :
    q.Chain name before (l ++ r) behind ↔
      q.Chain name before l (r.head?.or behind) ∧ q.Chain name (l.getLast?.or before) r behind := by
  induction l generalizing before with
  | nil => simp [Chain]
  | cons id rest ih =>
    have hlast : (id :: rest).getLast?.or before = rest.getLast?.or (some id) := by
      cases h : rest.getLast? <;> simp [List.getLast?_cons, h]
    simp only [List.cons_append, Chain, List.head?_append, Option.or_assoc, ih, hlast, and_assoc]

/-- A chain depends on the links of its members only. -/
theorem Chain.congr (h : q.Chain name before ids behind)
    (hl : ∀ j ∈ ids, q'.link j = q.link j) : q'.Chain name before ids behind := by
  induction ids generalizing before with
  | nil => trivial
  | cons id rest ih =>
    exact ⟨(hl id (by simp)).trans h.1, ih h.2 fun j hj => hl j (List.mem_cons_of_mem _ hj)⟩

/-- The last member of a chain gets another record behind it. -/
theorem Chain.set_behind (h : q.Chain name before ids x) (hd : ids.Nodup)
    (hl : ∀ j ∈ ids, q'.link j =
      { q.link j with next := if ids.getLast? = some j then y else (q.link j).next }) :
    q'.Chain name before ids y := by
  induction ids generalizing before with
  | nil => trivial
  | cons id rest ih =>
    obtain ⟨hid, hrest⟩ := h
    obtain ⟨hn, hd⟩ := List.nodup_cons.mp hd
    have hlast : rest ≠ [] → (id :: rest).getLast? = rest.getLast? := by
      intro hne
      obtain ⟨a, as, rfl⟩ := List.exists_cons_of_ne_nil hne
      simp
    refine ⟨?_, ih hrest hd fun j hj => ?_⟩
    · rw [hl id (by simp), hid]
      cases rest with
      | nil => simp
      | cons a as =>
        have : (id :: a :: as).getLast? ≠ some id := by
          rw [hlast (List.cons_ne_nil a as)]
          exact fun e => hn (List.mem_of_getLast? e)
        rw [if_neg this]
        simp
    · rw [hl j (List.mem_cons_of_mem _ hj), hlast (List.ne_nil_of_mem hj)]

/-- The first member of a chain gets another record in front of it. -/
theorem Chain.set_before (h : q.Chain name x ids behind) (hd : ids.Nodup)
    (hl : ∀ j ∈ ids, q'.link j =
      { q.link j with prev := if ids.head? = some j then y else (q.link j).prev }) :
    q'.Chain name y ids behind := by
  cases ids with
  | nil => trivial
  | cons id rest =>
    obtain ⟨hid, hrest⟩ := h
    refine ⟨by simp [hl id, hid], hrest.congr fun j hj => ?_⟩
    have : id ≠ j := fun e => (List.nodup_cons.mp hd).1 (e ▸ hj)
    simpa [this] using hl j (List.mem_cons_of_mem _ hj)

/-- The two parts of a list get other records between them. -/
theorem Chain.relink {u v : Option Nat} (hl : q.Chain name before l x)
    (hr : q.Chain name u r behind) (hd : (l ++ r).Nodup)
    (hlink : ∀ j ∈ l ++ r, q'.link j =
      { q.link j with
        prev := if r.head? = some j then v else (q.link j).prev
        next := if l.getLast? = some j then y else (q.link j).next }) :
    q'.Chain name before l y ∧ q'.Chain name v r behind := by
  obtain ⟨hdl, hdr, hdisj⟩ := List.nodup_append.mp hd
  constructor
  · refine hl.set_behind hdl fun j hj => ?_
    have : r.head? ≠ some j := fun hm => hdisj j hj j (List.mem_of_head? hm) rfl
    rw [hlink j (List.mem_append_left r hj), if_neg this]
  · refine hr.set_before hdr fun j hj => ?_
    have : l.getLast? ≠ some j := fun hm => hdisj j (List.mem_of_getLast? hm) j hj rfl
    rw [hlink j (List.mem_append_right l hj), if_neg this]

/-- A record on neither part is a neighbour of neither. -/
theorem not_neighbour (hj : j ∉ l ++ r) : l.getLast? ≠ some j ∧ r.head? ≠ some j :=
  ⟨fun hm => hj (List.mem_append_left r (List.mem_of_getLast? hm)),
    fun hm => hj (List.mem_append_right l (List.mem_of_head? hm))⟩

/-- A walk along a chain finds its members. -/
theorem Chain.walk (h : q.Chain name before ids none) {steps : Nat} (hs : ids.length ≤ steps) :
    q.walk steps ids.head? = ids := by
  induction ids generalizing before steps with
  | nil => cases steps <;> rfl
  | cons id rest ih =>
    obtain ⟨steps, rfl⟩ := Nat.exists_eq_add_of_le' (Nat.lt_of_lt_of_le (Nat.succ_pos _) hs)
    have hn : q.next? id = rest.head? := by simp [next?, h.1]
    simp only [List.head?_cons, Queues.walk, hn]
    rw [ih h.2 (Nat.le_of_succ_le_succ hs)]

/-- The link of a member of a chain that has no end. -/
theorem Chain.link_eq (h : q.Chain name none (l ++ id :: r) none) :
    q.link id = ⟨some name, l.getLast?, r.head?⟩ := by
  simpa using (chain_append.mp h).2.1

/-! ## Places on a list -/

/-- Put `id` in front of the first member for which `ahead` holds, or else at the end. -/
def insertAhead (ahead : Nat → Bool) (id : Nat) : List Nat → List Nat
  | [] => [id]
  | m :: rest => if ahead m then id :: m :: rest else m :: insertAhead ahead id rest

theorem insertAhead_of_find? {ahead : Nat → Bool} {next : Nat} (id : Nat)
    (h : ids.find? ahead = some next) :
    ∃ l r, ids = l ++ next :: r ∧ insertAhead ahead id ids = l ++ id :: next :: r := by
  induction ids with
  | nil => cases h
  | cons m rest ih =>
    cases hm : ahead m with
    | true =>
      rw [List.find?_cons_of_pos hm] at h
      cases h
      exact ⟨[], rest, rfl, by simp [insertAhead, hm]⟩
    | false =>
      rw [List.find?_cons_of_neg (by simp [hm])] at h
      obtain ⟨l, r, e, hins⟩ := ih h
      exact ⟨m :: l, r, by simp [e], by simp [insertAhead, hm, hins]⟩

theorem insertAhead_of_find?_none {ahead : Nat → Bool} (h : ids.find? ahead = none) :
    insertAhead ahead id ids = ids ++ [id] := by
  induction ids with
  | nil => rfl
  | cons m rest ih =>
    obtain ⟨hm, hrest⟩ := List.forall_mem_cons.mp (List.find?_eq_none.mp h)
    simp [insertAhead, hm, ih (List.find?_eq_none.mpr hrest)]

/-! ## The queues as six lists -/

/-- The queues stand for six lists: a known record is on one list at most and there once,
the ends and the links are those of the lists, and a record on no list stands alone. -/
structure Holds (q : Queues) (lists : QueueName → List Nat) : Prop where
  known : ∀ {name id}, id ∈ lists name → id < q.registered
  nodup : ∀ name, (lists name).Nodup
  apart : ∀ {a b id}, id ∈ lists a → id ∈ lists b → a = b
  ends : ∀ name, q.endsOf name =
    ⟨(lists name).head?, (lists name).getLast?, (lists name).length⟩
  chain : ∀ name, q.Chain name none (lists name) none
  free : ∀ {id}, (∀ name, id ∉ lists name) → q.link id = {}

namespace Holds

variable (h : q.Holds lists)

include h

theorem link_eq (e : lists name = l ++ id :: r) :
    q.link id = ⟨some name, l.getLast?, r.head?⟩ :=
  (e ▸ h.chain name).link_eq

theorem queueOf_iff : q.queueOf id = some name ↔ id ∈ lists name := by
  have hmem : ∀ {other}, id ∈ lists other → q.queueOf id = some other := by
    intro other hm
    obtain ⟨l, r, e⟩ := List.append_of_mem hm
    simp [queueOf, h.link_eq e]
  refine ⟨fun hq => ?_, hmem⟩
  by_cases hf : ∀ other, id ∉ lists other
  · simp [queueOf, h.free hf] at hq
  · obtain ⟨other, hm⟩ := not_forall_not.mp hf
    rwa [← Option.some.inj ((hmem hm).symm.trans hq)]

theorem queueOf_eq_none_iff : q.queueOf id = none ↔ ∀ name, id ∉ lists name := by
  constructor
  · intro hq name hm
    cases hq.symm.trans (h.queueOf_iff.mpr hm)
  · intro hf
    simp [queueOf, h.free hf]

/-- A queue has no more members than there are records. -/
theorem length_le : (lists name).length ≤ q.registered := by
  have hsub : lists name ⊆ List.range q.registered := fun id hm => by
    simpa using h.known hm
  simpa using ((h.nodup name).subperm hsub).length_le

theorem members_eq : q.members name = lists name := by
  rw [members, head?, h.ends]
  exact (h.chain name).walk h.length_le

/-- One of the lists is replaced. The new members were on the old list or on none, and a
record that is not on the new list keeps its link or is left alone. -/
theorem relist (hr : q'.registered = q.registered) (hd : ids.Nodup)
    (hold : ∀ j ∈ ids, j ∈ lists name ∨ j < q.registered ∧ ∀ other, j ∉ lists other)
    (hends : ∀ other, q'.endsOf other =
      if other = name then ⟨ids.head?, ids.getLast?, ids.length⟩ else q.endsOf other)
    (hchain : q'.Chain name none ids none)
    (hout : ∀ j, j ∉ ids → q'.link j = if j ∈ lists name then {} else q.link j) :
    q'.Holds (Function.update lists name ids) := by
  have hnew : ∀ {other j}, other ≠ name → j ∈ lists other → j ∉ ids ∧ j ∉ lists name := by
    intro other j hne hj
    have hn : j ∉ lists name := fun hm => hne (h.apart hj hm)
    exact ⟨fun hm => (hold j hm).elim hn fun hf => hf.2 other hj, hn⟩
  refine ⟨fun {other j} hj => ?_, fun other => ?_, fun {a b j} ha hb => ?_, fun other => ?_,
    fun other => ?_, fun {j} hj => ?_⟩
  · rw [hr]
    by_cases e : other = name
    · subst e
      rw [Function.update_self] at hj
      exact (hold j hj).elim h.known And.left
    · rw [Function.update_of_ne e] at hj
      exact h.known hj
  · by_cases e : other = name
    · subst e
      rwa [Function.update_self]
    · rw [Function.update_of_ne e]
      exact h.nodup other
  · by_cases ea : a = name <;> by_cases eb : b = name
    · exact ea.trans eb.symm
    · subst ea
      rw [Function.update_self] at ha
      rw [Function.update_of_ne eb] at hb
      exact absurd ha (hnew eb hb).1
    · subst eb
      rw [Function.update_self] at hb
      rw [Function.update_of_ne ea] at ha
      exact absurd hb (hnew ea ha).1
    · rw [Function.update_of_ne ea] at ha
      rw [Function.update_of_ne eb] at hb
      exact h.apart ha hb
  · rw [hends]
    by_cases e : other = name
    · subst e
      simp
    · rw [if_neg e, Function.update_of_ne e]
      exact h.ends other
  · by_cases e : other = name
    · subst e
      rwa [Function.update_self]
    · rw [Function.update_of_ne e]
      refine (h.chain other).congr fun j hj => ?_
      rw [hout j (hnew e hj).1, if_neg (hnew e hj).2]
  · have hi : j ∉ ids := by simpa using hj name
    rw [hout j hi]
    split
    · rfl
    · rename_i hn
      refine h.free fun other => ?_
      by_cases e : other = name
      · exact e ▸ hn
      · simpa [e] using hj other

/-- A free record is put between the two parts of a list. -/
theorem splice (e : lists name = l ++ r) (hk : id < q.registered)
    (hf : ∀ other, id ∉ lists other) (hr : q'.registered = q.registered)
    (hends : ∀ other, q'.endsOf other =
      if other = name then
        ⟨(l ++ id :: r).head?, (l ++ id :: r).getLast?, (l ++ id :: r).length⟩
      else q.endsOf other)
    (hlink : ∀ j, q'.link j =
      if j = id then ⟨some name, l.getLast?, r.head?⟩
      else { q.link j with
        prev := if r.head? = some j then some id else (q.link j).prev
        next := if l.getLast? = some j then some id else (q.link j).next }) :
    q'.Holds (Function.update lists name (l ++ id :: r)) := by
  have hmem : ∀ {j}, j ∈ l ++ id :: r ↔ j = id ∨ j ∈ l ++ r := by
    intro j
    rw [List.perm_middle.mem_iff, List.mem_cons]
  have hnd : (l ++ r).Nodup := e ▸ h.nodup name
  have hid : id ∉ l ++ r := e ▸ hf name
  refine h.relist hr ?_ (fun j hj => ?_) hends ?_ fun j hj => ?_
  · exact List.perm_middle.nodup_iff.mpr (List.nodup_cons.mpr ⟨hid, hnd⟩)
  · rcases hmem.mp hj with rfl | hm
    · exact Or.inr ⟨hk, hf⟩
    · exact Or.inl (e ▸ hm)
  · obtain ⟨hl, hr'⟩ := chain_append.mp (e ▸ h.chain name)
    obtain ⟨hl, hr'⟩ := hl.relink hr' hnd fun j hj => by
      rw [hlink, if_neg fun (hji : j = id) => hid (hji ▸ hj)]
    exact chain_append.mpr ⟨hl, by simp [hlink], hr'⟩
  · obtain ⟨hji, hj⟩ := not_or.mp (mt hmem.mpr hj)
    obtain ⟨hnl, hnr⟩ := not_neighbour hj
    rw [hlink, if_neg hji, if_neg hnl, if_neg hnr, if_neg (e ▸ hj)]

/-- A record is taken out between the two parts of a list. -/
theorem cut (e : lists name = l ++ id :: r) (hr : q'.registered = q.registered)
    (hends : ∀ other, q'.endsOf other =
      if other = name then ⟨(l ++ r).head?, (l ++ r).getLast?, (l ++ r).length⟩
      else q.endsOf other)
    (hlink : ∀ j, q'.link j =
      if j = id then {}
      else { q.link j with
        prev := if r.head? = some j then l.getLast? else (q.link j).prev
        next := if l.getLast? = some j then r.head? else (q.link j).next }) :
    q'.Holds (Function.update lists name (l ++ r)) := by
  have hmem : ∀ {j}, j ∈ lists name ↔ j = id ∨ j ∈ l ++ r := by
    intro j
    rw [e, List.perm_middle.mem_iff, List.mem_cons]
  obtain ⟨hid, hnd⟩ :=
    List.nodup_cons.mp (List.perm_middle.nodup_iff.mp (e ▸ h.nodup name))
  refine h.relist hr hnd (fun j hj => Or.inl (hmem.mpr (Or.inr hj))) hends ?_ fun j hj => ?_
  · obtain ⟨hl, -, hr'⟩ := chain_append.mp (e ▸ h.chain name)
    obtain ⟨hl, hr'⟩ := hl.relink hr' hnd fun j hj => by
      rw [hlink, if_neg fun (hji : j = id) => hid (hji ▸ hj)]
    exact chain_append.mpr ⟨by simpa using hl, by simpa using hr'⟩
  · obtain ⟨hnl, hnr⟩ := not_neighbour hj
    rw [hlink, if_neg hnl, if_neg hnr]
    by_cases hji : j = id
    · rw [if_pos hji, if_pos (hmem.mpr (Or.inl hji))]
    · rw [if_neg hji, if_neg fun hm => (hmem.mp hm).elim hji hj]

theorem head?_eq : q.head? name = (lists name).head? := by rw [head?, h.ends]

theorem tail?_eq : q.tail? name = (lists name).getLast? := by rw [tail?, h.ends]

theorem length_eq : q.length name = (lists name).length := by rw [Queues.length, h.ends]

/-- The neighbours of a place on a list are known. -/
theorem known_getLast? (e : lists name = l ++ r) : ∀ j ∈ l.getLast?, j < q.registered :=
  fun _ hj => h.known (e ▸ List.mem_append_left r (List.mem_of_getLast? hj))

theorem known_head? (e : lists name = l ++ r) : ∀ j ∈ r.head?, j < q.registered :=
  fun _ hj => h.known (e ▸ List.mem_append_right l (List.mem_of_head? hj))

theorem join (hk : id < q.registered) (hf : ∀ other, id ∉ lists other) :
    (q.join name id).Holds (Function.update lists name (lists name ++ [id])) := by
  have e : lists name = lists name ++ [] := (List.append_nil _).symm
  refine h.splice e hk hf registered_join (fun other => ?_) fun j => ?_
  · rw [endsOf_join, h.head?_eq, h.length_eq]
    cases lists name <;> simp [List.getLast?_cons]
  · rw [link_join hk (h.tail?_eq ▸ h.known_getLast? e), h.tail?_eq]
    simp

theorem joinBefore {next : Nat} (e : lists name = l ++ next :: r) (hk : id < q.registered)
    (hf : ∀ other, id ∉ lists other) :
    (q.joinBefore name id next).Holds (Function.update lists name (l ++ id :: next :: r)) := by
  have hp : q.prev? next = l.getLast? := by rw [prev?, h.link_eq e]
  have hid := not_neighbour (e ▸ hf name)
  refine h.splice e hk hf registered_joinBefore (fun other => ?_) fun j => ?_
  · rw [endsOf_joinBefore, hp, h.head?_eq, h.tail?_eq, h.length_eq, e]
    cases l <;> simp [List.getLast?_cons, Nat.add_assoc]
  · rw [link_joinBefore hk (h.known_head? e next rfl) (hp ▸ h.known_getLast? e)
      (by simpa [hp] using hid), hp]
    simp

theorem leave (hm : id ∈ lists name) :
    (q.leave name id).Holds (Function.update lists name ((lists name).erase id)) := by
  obtain ⟨l, r, -, e, her⟩ := List.exists_erase_eq hm
  have hp : q.prev? id = l.getLast? := by rw [prev?, h.link_eq e]
  have hn : q.next? id = r.head? := by rw [next?, h.link_eq e]
  have e' : lists name = (l ++ [id]) ++ r := by simp [e]
  rw [her]
  refine h.cut e registered_leave (fun other => ?_) fun j => ?_
  · rw [endsOf_leave, hp, hn, h.head?_eq, h.tail?_eq, h.length_eq, e]
    cases l <;> cases r <;> simp [List.getLast?_cons, List.getLast?_append, Nat.add_assoc]
  · rw [link_leave (h.known_head? e id rfl) (hp ▸ h.known_getLast? e) (hn ▸ h.known_head? e'),
      hp, hn]

theorem joinAhead {ahead : Nat → Nat → Bool} (hk : id < q.registered)
    (hf : ∀ other, id ∉ lists other) :
    (q.joinAhead name ahead id).Holds
      (Function.update lists name (insertAhead (ahead id) id (lists name))) := by
  rw [Queues.joinAhead, h.members_eq]
  cases hfind : (lists name).find? (ahead id) with
  | some next =>
    obtain ⟨l, r, e, hins⟩ := insertAhead_of_find? id hfind
    rw [hins]
    exact h.joinBefore e hk hf
  | none =>
    rw [insertAhead_of_find?_none hfind]
    exact h.join hk hf

/-- One more record is known. It is on no list. -/
theorem register : q.register.2.Holds lists where
  known hm := by
    rw [registered_register]
    exact Nat.lt_succ_of_lt (h.known hm)
  nodup := h.nodup
  apart := h.apart
  ends := h.ends
  chain name := (h.chain name).congr fun j _ => link_register j
  free hf := (link_register _).trans (h.free hf)

end Holds

/-- Without records the lists are empty. -/
theorem holds_empty : ({} : Queues).Holds fun _ => [] where
  known hm := nomatch hm
  nodup _ := List.nodup_nil
  apart hm := nomatch hm
  ends name := by cases name <;> rfl
  chain _ := trivial
  free _ := rfl

end Queues

end NightlyBackup
