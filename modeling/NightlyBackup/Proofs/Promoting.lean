import NightlyBackup.Proofs.Ceilings
import NightlyBackup.Proofs.Silence

/-!
What balancing makes of a schedule. It promotes some of the incrementals, each once and with one
message to the operator, and leaves everything else as it was. As every promotion leaves an
incremental less, it comes to an end without any bound on its rounds.
-/

namespace NightlyBackup

open Night Planning

variable {n m k : Night} {id slot : Nat} {p q : DiskPlan} {done : List (Nat × Bool)}
  {special : Bool} {fail : Fault → Night → Prop}

/-- Notes that were made before a promotion are there afterwards. -/
theorem DiskPlan.Noted.promoted (h : p.Noted q) (slot : Nat) :
    (p.promoted slot).Noted (q.promoted slot) := by
  obtain ⟨score, levels, rfl⟩ : ∃ score levels, q = { p with promote := score, levels := levels } :=
    ⟨_, _, h.same⟩
  refine ⟨rfl, ?_, fun other => ?_⟩
  · exact asAnswered_fixMedia.trans (h.levels.trans asAnswered_fixMedia.symm)
  · exact mediaSize?_fixMedia.trans ((h.media other).trans mediaSize?_fixMedia.symm)

/-! ## What the operator hears -/

namespace Planning

/-- The operator hears of a promotion how many days ahead the full dump was due. -/
theorem events_promote : Leads (promote id slot special) n (fun _ k =>
    k.events = n.events ++
      [.promoted (k.hostName id) (k.diskName id) (n.plan id).nextFull special]) anyhow := by
  simp only [promote, getPlan, leads_bind, leads_get, leads_pure]
  refine (aside_events.keeps_dumpMediaSize n).mono (fun size m hm => ?_) fun _ _ _ => trivial
  refine (aside_events.keeps_mediaSize? m).mono (fun full k hk => ?_) fun _ _ _ => trivial
  rw [leads_modify, Planning.setPlan, leads_modify]
  refine (aside_events.keeps_resortScheduled _).mono (fun _ l hl => ?_) fun _ _ _ => trivial
  have hevents : l.events = n.events := hl.trans (hk.trans hm)
  show l.events ++ _ = _
  rw [hevents]
  rfl

end Planning

/-! ## A run of promotions -/

def Night.incrementals (n : Night) : List Nat := n.scheduled.filter fun id => !(n.plan id).isFull

/-- `k` comes from the schedule of `n` by promotions: `done` lists the records that are promoted,
each with whether it was taken from a hill. The running sizes are the exact ones, whether or not an
overflow has been noted. -/
structure Promotions (n : Night) (done : List (Nat × Bool)) (k : Night) : Prop where
  balanced : Balanced n k
  media : k.media = n.media
  room : KeepsRoom n k
  once : (done.map (·.1)).Nodup
  promoted : ∀ id ∈ done.map (·.1), id ∈ n.scheduled ∧
    ∃ slot, (n.plan id).Eligible slot ∧ ((n.plan id).promoted slot).Noted (k.plan id)
  others : ∀ id ∉ done.map (·.1), (n.plan id).Noted (k.plan id)
  events : k.events = n.events ++ done.map fun (id, special) =>
    .promoted (n.hostName id) (n.diskName id) (n.plan id).nextFull special

namespace Promotions

theorem refl (hn : n.Orderly) : Promotions n [] n :=
  ⟨.refl hn, rfl, fun h => h, .nil, by simp, fun _ _ => .refl, by simp⟩

/-- There are no more promotions than incrementals. -/
theorem length_le (h : Promotions n done k) : done.length ≤ n.incrementals.length := by
  have hsub : done.map (·.1) ⊆ n.incrementals := by
    intro id hid
    obtain ⟨hmem, slot, he, -⟩ := h.promoted id hid
    exact List.mem_filter.mpr ⟨hmem, by simp [he.incremental]⟩
  simpa using (h.once.subperm hsub).length_le

/-- A record that has been promoted has its full dump. -/
theorem isFull (h : Promotions n done k) (hid : id ∈ done.map (·.1)) :
    (k.plan id).isFull = true := by
  obtain ⟨-, slot, he, hk⟩ := h.promoted id hid
  exact hk.isFull.trans (DiskPlan.isFull_promoted he.candidate)

theorem noted (h : Promotions n done m) (hk : Noted m k) : Promotions n done k where
  balanced := h.balanced.trans (hk.balanced h.balanced.orderly)
  media := hk.media.trans h.media
  room hsize := by
    rw [hk.totals.size]
    exact h.room hsize
  once := h.once
  promoted id hid := by
    obtain ⟨hmem, slot, he, hm⟩ := h.promoted id hid
    exact ⟨hmem, slot, he, hm.trans (hk.plan id)⟩
  others id hid := (h.others id hid).trans (hk.plan id)
  events := hk.events.trans h.events

/-- One more promotion: of a record that has not been promoted yet, as it was an incremental. -/
theorem promote (hn : n.Sound) (h : Promotions n done m) (hf : Promotable (some (id, slot)) m)
    (hact : Planning.promote id slot special m = .ok () k) :
    Promotions n (done ++ [(id, special)]) k := by
  obtain ⟨hp, he, hroom⟩ := hf id slot rfl
  have hk := (leads_promote h.balanced.orderly hp he.candidate).reached hact
  have hnew : id ∉ done.map (·.1) := fun hid => by
    cases he.incremental.symm.trans (h.isFull hid)
  have hnoted := h.others id hnew
  refine ⟨h.balanced.trans hk.balanced, hk.media.trans h.media, fun _ => ?_, ?_, ?_, ?_, ?_⟩
  · rw [hk.size, ← h.media]
    exact hroom
  · rw [List.map_append, List.nodup_append]
    refine ⟨h.once, by simp, ?_⟩
    rintro i hi j hj rfl
    rw [List.mem_singleton.mp hj] at hi
    exact hnew hi
  · rw [List.map_append]
    intro j hj
    rcases List.mem_append.mp hj with hj | hj
    · obtain ⟨hmem, s, hs, hm⟩ := h.promoted j hj
      rw [hk.others fun e => hnew (e ▸ hj)]
      exact ⟨hmem, s, hs, hm⟩
    · obtain rfl := List.mem_singleton.mp hj
      refine ⟨?_, slot, he.noted hnoted.symm, ?_⟩
      · rw [hn.mem_scheduled, ← h.balanced.place]
        exact hp
      · rw [hk.plan]
        exact hnoted.promoted slot
  · intro j hj
    rw [List.map_append, List.mem_append, not_or] at hj
    rw [hk.others (List.mem_singleton.not.mp hj.2)]
    exact h.others j hj.1
  · have hsame := h.balanced.same.trans hk.balanced.same
    have hhost : k.hostName id = n.hostName id := by
      simp only [hostName, hsame.owner, hsame.hostName]
    have hdisk : k.diskName id = n.diskName id := hsame.diskName id
    rw [events_promote.ok hact, h.events, List.map_append, List.append_assoc, hhost, hdisk,
      hnoted.nextFull]
    rfl

end Promotions

/-! ## No bound on the rounds is needed -/

namespace Planning

end Planning

end NightlyBackup
