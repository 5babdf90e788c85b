import NightlyBackup.Proofs.Links

/-!
Queues in order: they stand for the lists of their members, so every member is known and
stands on one queue only, and there only once. Which queue a record is on is then a function
of the record, and this function is all that most of the planning depends on. Each operation
that is not refused changes it at one record.
-/

namespace NightlyBackup

theorem QueueName.mem_all (name : QueueName) : name ∈ all := by
  cases name <;> decide

theorem QueueName.exists_index : ∀ i, ∃ name : QueueName, name.index = i
  | 0 => ⟨.start, rfl⟩
  | 1 => ⟨.waiting, rfl⟩
  | 2 => ⟨.partialEstimate, rfl⟩
  | 3 => ⟨.estimated, rfl⟩
  | 4 => ⟨.failed, rfl⟩
  | 5 => ⟨.scheduled, rfl⟩

namespace Queues

variable {q q' : Queues} {id j : Nat} {name target : QueueName} {lists : QueueName → List Nat}
  {ids : List Nat}

def Valid (q : Queues) : Prop := q.Holds q.members

theorem Holds.valid (h : q.Holds lists) : q.Valid := by
  have : q.members = lists := funext fun _ => h.members_eq
  rwa [Valid, this]

theorem Valid.queueOf_iff (hv : q.Valid) : q.queueOf id = some name ↔ id ∈ q.members name :=
  Holds.queueOf_iff hv

theorem Valid.queueOf_eq_none_iff (hv : q.Valid) :
    q.queueOf id = none ↔ ∀ name, id ∉ q.members name :=
  Holds.queueOf_eq_none_iff hv

/-- A record that is on the same lists before and after is on the same queue. -/
theorem Valid.queueOf_congr (hv : q.Valid) (hv' : q'.Valid)
    (hm : ∀ name, j ∈ q'.members name ↔ j ∈ q.members name) : q'.queueOf j = q.queueOf j := by
  refine Option.ext fun name => ?_
  rw [hv'.queueOf_iff, hv.queueOf_iff, hm]

/-- The members say all about queues that are in order. -/
theorem Valid.ext (hv : q.Valid) (hv' : q'.Valid) (hr : q'.registered = q.registered)
    (hm : ∀ name, q'.members name = q.members name) : q' = q := by
  have hlink : ∀ id, q'.link id = q.link id := by
    intro id
    by_cases hf : ∀ name, id ∉ q.members name
    · rw [Holds.free hv hf, Holds.free hv' fun name => hm name ▸ hf name]
    · obtain ⟨name, hid⟩ := not_forall_not.mp hf
      obtain ⟨l, r, e⟩ := List.append_of_mem hid
      rw [Holds.link_eq hv e, Holds.link_eq hv' ((hm name).trans e)]
  have hlinks : q'.links = q.links := by
    refine List.ext_getElem hr fun i hi hi' => ?_
    simpa [link, List.getD_eq_getElem?_getD, hi, hi'] using hlink i
  have hends : q'.ends = q.ends := by
    refine Vector.ext fun i hi => ?_
    obtain ⟨name, hname⟩ : ∃ name : QueueName, name.index = ⟨i, hi⟩ := QueueName.exists_index _
    have he : q'.endsOf name = q.endsOf name := by
      rw [Holds.ends hv, Holds.ends hv', hm]
    simpa [endsOf, hname] using he
  cases q
  cases q'
  simp_all

/-! ## Joining and leaving a queue -/

theorem insertAhead_perm (ahead : Nat → Bool) (id : Nat) (ids : List Nat) :
    (insertAhead ahead id ids).Perm (id :: ids) := by
  induction ids with
  | nil => exact .refl _
  | cons m rest ih =>
    unfold insertAhead
    split
    · exact .refl _
    · exact (ih.cons m).trans (.swap id m rest)

@[simp]
theorem registered_joinAhead {ahead : Nat → Nat → Bool} :
    (q.joinAhead name ahead id).registered = q.registered := by
  rw [joinAhead]
  cases (q.members name).find? (ahead id) <;> simp

/-- A record that joins a queue, at whatever place, is on this queue from then on, and no
other record moves. -/
theorem Holds.queueOf_joined (h : q'.Holds (Function.update q.members name ids)) (hv : q.Valid)
    (hp : ids.Perm (id :: q.members name)) (j : Nat) :
    q'.queueOf j = if j = id then some name else q.queueOf j := by
  have hmem : ∀ {j}, j ∈ ids ↔ j = id ∨ j ∈ q.members name := by
    intro j
    rw [hp.mem_iff, List.mem_cons]
  split
  · rename_i e
    rw [h.queueOf_iff, Function.update_self]
    exact hmem.mpr (Or.inl e)
  · rename_i e
    refine hv.queueOf_congr h.valid fun other => ?_
    rw [h.members_eq]
    by_cases en : other = name
    · subst en
      rw [Function.update_self, hmem]
      simp [e]
    · rw [Function.update_of_ne en]

namespace Valid

variable (hv : q.Valid)

include hv

theorem holds_join (hk : id < q.registered) (hf : q.queueOf id = none) :
    (q.join name id).Holds (Function.update q.members name (q.members name ++ [id])) :=
  Holds.join hv hk (hv.queueOf_eq_none_iff.mp hf)

theorem holds_joinAhead {ahead : Nat → Nat → Bool} (hk : id < q.registered)
    (hf : q.queueOf id = none) :
    (q.joinAhead name ahead id).Holds
      (Function.update q.members name (insertAhead (ahead id) id (q.members name))) :=
  Holds.joinAhead hv hk (hv.queueOf_eq_none_iff.mp hf)

theorem holds_leave (hm : id ∈ q.members name) :
    (q.leave name id).Holds (Function.update q.members name ((q.members name).erase id)) :=
  Holds.leave hv hm

theorem join (hk : id < q.registered) (hf : q.queueOf id = none) : (q.join name id).Valid :=
  (hv.holds_join hk hf).valid

theorem queueOf_join (hk : id < q.registered) (hf : q.queueOf id = none)
    (j : Nat) : (q.join name id).queueOf j = if j = id then some name else q.queueOf j :=
  (hv.holds_join hk hf).queueOf_joined hv (List.perm_append_singleton ..) j

theorem joinAhead {ahead : Nat → Nat → Bool} (hk : id < q.registered)
    (hf : q.queueOf id = none) : (q.joinAhead name ahead id).Valid :=
  (hv.holds_joinAhead hk hf).valid

theorem queueOf_joinAhead {ahead : Nat → Nat → Bool} (hk : id < q.registered)
    (hf : q.queueOf id = none) (j : Nat) :
    (q.joinAhead name ahead id).queueOf j = if j = id then some name else q.queueOf j :=
  (hv.holds_joinAhead hk hf).queueOf_joined hv (insertAhead_perm ..) j

theorem leave (hm : id ∈ q.members name) : (q.leave name id).Valid := (hv.holds_leave hm).valid

theorem queueOf_leave (hm : id ∈ q.members name) (j : Nat) :
    (q.leave name id).queueOf j = if j = id then none else q.queueOf j := by
  have h := hv.holds_leave hm
  split
  · rename_i e
    subst e
    refine h.queueOf_eq_none_iff.mpr fun other hj => ?_
    by_cases en : other = name
    · subst en
      rw [Function.update_self] at hj
      exact (hv.nodup other).not_mem_erase hj
    · rw [Function.update_of_ne en] at hj
      exact en (hv.apart hj hm)
  · rename_i e
    refine hv.queueOf_congr h.valid fun other => ?_
    rw [h.members_eq]
    by_cases en : other = name
    · subst en
      rw [Function.update_self, List.mem_erase_of_ne e]
    · rw [Function.update_of_ne en]

end Valid

/-! ## Operations that are not refused -/

theorem checkFree_ok (hk : id < q.registered) (hf : q.queueOf id = none) :
    q.checkFree id = .ok () := by
  simp [checkFree, Nat.not_le.mpr hk, hf]

theorem of_checkFree (h : q.checkFree id = .ok ()) :
    id < q.registered ∧ q.queueOf id = none := by
  unfold checkFree at h
  split at h
  · cases h
  · rename_i hk
    split at h
    · cases h
    · rename_i hf
      exact ⟨Nat.not_le.mp hk, hf⟩

theorem enqueue_ok (hk : id < q.registered) (hf : q.queueOf id = none) :
    q.enqueue name id = .ok (q.join name id) := by
  unfold enqueue
  rw [checkFree_ok hk hf]
  rfl

theorem insertSorted_ok {ahead : Nat → Nat → Bool} (hk : id < q.registered)
    (hf : q.queueOf id = none) :
    q.insertSorted name ahead id = .ok (q.joinAhead name ahead id) := by
  unfold insertSorted
  rw [checkFree_ok hk hf]
  rfl

theorem remove_ok (hv : q.Valid) (hm : id ∈ q.members name) :
    q.remove name id = .ok (q.leave name id) := by
  unfold remove
  rw [if_neg (Nat.not_le.mpr (hv.known hm)), if_pos (hv.queueOf_iff.mpr hm)]

/-- A record that leaves its queue is free to join another. -/
theorem Valid.queueOf_leave_self (hv : q.Valid) (hm : id ∈ q.members name) :
    (q.leave name id).queueOf id = none := by
  rw [hv.queueOf_leave hm, if_pos rfl]

theorem moveTo_ok (hv : q.Valid) (hm : id ∈ q.members name) :
    q.moveTo id name target = .ok ((q.leave name id).join target id) := by
  unfold moveTo
  rw [remove_ok hv hm]
  exact enqueue_ok (by simpa using hv.known hm) (hv.queueOf_leave_self hm)

theorem Valid.move (hv : q.Valid) (hm : id ∈ q.members name) :
    ((q.leave name id).join target id).Valid :=
  (hv.leave hm).join (by simpa using hv.known hm) (hv.queueOf_leave_self hm)

theorem Valid.queueOf_move (hv : q.Valid) (hm : id ∈ q.members name) (j : Nat) :
    ((q.leave name id).join target id).queueOf j = if j = id then some target else q.queueOf j := by
  rw [(hv.leave hm).queueOf_join (by simpa using hv.known hm) (hv.queueOf_leave_self hm),
    hv.queueOf_leave hm]
  split <;> rfl

/-- The record in front of another one is on the same queue. -/
theorem Valid.prev?_spec (hv : q.Valid) (hq : q.queueOf id = some name)
    (h : q.prev? id = some j) : q.queueOf j = some name ∧ j ≠ id := by
  obtain ⟨l, r, e⟩ := List.append_of_mem (hv.queueOf_iff.mp hq)
  rw [prev?, Holds.link_eq hv e] at h
  have hj : j ∈ l := List.mem_of_getLast? h
  have hd : (l ++ id :: r).Nodup := e ▸ hv.nodup name
  refine ⟨hv.queueOf_iff.mpr (e ▸ List.mem_append_left _ hj), fun hji => ?_⟩
  exact (List.nodup_append.mp hd).2.2 j hj id (by simp) hji

end Queues

end NightlyBackup
