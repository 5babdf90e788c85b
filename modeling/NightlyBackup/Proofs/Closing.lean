import NightlyBackup.Proofs.Exchanging

/-!
The end of the conversations. What happens to one host leaves the others as they are, so that
calling off the run ends the conversations with all of them; and whatever is still open at the
very end is resolved record by record.
-/

namespace NightlyBackup

open Night

variable {h g id : Nat} {n m k l : Night} {fail : Fault → Night → Prop}

/-! ## The other hosts -/

structure Untouched (g : Nat) (m k : Night) : Prop where
  host : k.host g = m.host g
  place : ∀ id ∈ (m.host g).disks, k.place id = m.place id

theorem Concerns.untouched (hm : Concerns h m k) (hn : m.Hosted) (hg : g ≠ h) :
    Untouched g m k := by
  refine ⟨hm.hosts hg, fun id hid => hm.place fun hid' => hg ?_⟩
  rw [← (hn.owner hid).2, (hn.owner hid').2]

namespace Untouched

theorem idle (hu : Untouched g m k) (hi : Idle m g) : Idle k g := by
  intro id hid
  rw [hu.host] at hid
  rw [Resolved, hu.place id hid]
  exact hi id hid

theorem unasked (hu : Untouched g m k) (ha : Unasked m g) : Unasked k g := by
  intro id hid
  rw [hu.host] at hid
  rw [Awaits, hu.place id hid]
  exact ha id hid

theorem asked (hu : Untouched g m k) (ha : Asked m g) : Asked k g := by
  intro id hid
  rw [hu.host] at hid
  rw [hu.place id hid]
  exact ha id hid

theorem atRest (hu : Untouched g m k) (hr : AtRest m g) : AtRest k g := by
  refine ⟨hu.unasked hr.unasked, ?_, fun hd => hu.idle (hr.done ?_)⟩
  · rw [hu.host]
    exact hr.state
  · rwa [hu.host] at hd

theorem inTalk (hu : Untouched g m k) (ht : InTalk m g) : InTalk k g := by
  refine ⟨ht.asked.imp hu.unasked hu.asked, fun hd => hu.idle (ht.done ?_)⟩
  rwa [hu.host] at hd

end Untouched

/-! ## The end of all conversations -/

namespace Planning

/-- After a run is called off every host is done, and none has an open disk. -/
theorem leads_cancelAll (hn : n.Hosted) (hc : Conversing [] n m) :
    Leads cancelAll m (fun _ k => (Conversing [] n k ∧ KeepsOver m k) ∧
      ∀ h, HostDone k h ∧ (((m.host h).state = .done → Idle m h) → Idle k h)) fail := by
  simp only [cancelAll, leads_bind, leads_get]
  refine (leads_forM_each (I := fun k => Conversing [] n k ∧ KeepsOver m k)
    (P := fun h k => ((m.host h).state = .done → Idle m h) →
      (k.host h).state = .done → Idle k h)
    (Q := fun h k => HostDone k h ∧ (((m.host h).state = .done → Idle m h) → Idle k h))
    List.nodup_range ?_ ⟨hc, .refl⟩ fun _ _ hd => hd).imp ?_
  · rintro h - k ⟨hk, hmk⟩ hp
    simp only [leads_bind, leads_get]
    split
    · apply (leads_hostFailed hn hk _).imp
      rintro _ l ⟨hl, hkl, hidle, hdone⟩
      refine ⟨⟨hl, hmk.trans hkl.finished⟩, ⟨hdone, fun _ => hidle⟩, fun g _ hg => ?_⟩
      have hu := hkl.untouched (hk.same.hosted hn) hg
      refine ⟨fun hpg hd hs => hu.idle (hpg hd ?_), fun hqg =>
        ⟨fun hlt => ?_, fun hd => hu.idle (hqg.2 hd)⟩⟩
      · rwa [hu.host] at hs
      · rw [hu.host]
        exact hqg.1 (hkl.same.hosts ▸ hlt)
    · rename_i hstate
      have hdone : (k.host h).state = .done := Decidable.not_not.mp hstate
      exact ⟨⟨hk, hmk⟩, ⟨fun _ => hdone, fun hd => hp hd hdone⟩,
        fun _ _ _ => ⟨fun h => h, fun h => h⟩⟩
  · rintro _ k ⟨⟨hk, hmk⟩, hall⟩
    have hlength : k.hosts.length = m.hosts.length := hk.same.hosts.trans hc.same.hosts.symm
    refine ⟨⟨hk, hmk⟩, fun h => ?_⟩
    by_cases hh : h < m.hosts.length
    · exact hall h (List.mem_range.mpr hh)
    · refine ⟨fun hlt => absurd (hlength ▸ hlt) hh, fun _ id hid => ?_⟩
      rw [host_of_le (hlength ▸ Nat.le_of_not_lt hh)] at hid
      cases hid

end Planning

/-! ## The last disks -/

def Final (p : DiskPlan) (q : Option QueueName) : Prop :=
  q = some .estimated ∨ (q = some .failed ∧ p.fault.isSome)

/-- A record that was on `first` when the conversations began: at their end it is final, or
on one of the queues `left`; one that they are not about is where it was. -/
def Leaving (left : List QueueName) (first : Option QueueName) (p : DiskPlan)
    (q : Option QueueName) : Prop :=
  (first = some .start ∧ (Final p q ∨ ∃ name ∈ left, q = some name)) ∨
    (q = first ∧ (first = none ∨ (first = some .failed ∧ p.fault.isSome)))

/-- A night at the end of the conversations that began with `n`. -/
structure Closing (left : List QueueName) (n m : Night) : Prop where
  sound : m.Sound
  same : n.SameDisks m
  skipped : m.skipped = n.skipped
  leaving : ∀ id, Leaving left (n.place id) (m.plan id) (m.place id)

theorem Conversing.closing (hc : Conversing [] n m) :
    Closing [.waiting, .partialEstimate, .start] n m := by
  refine ⟨hc.sound, hc.same, hc.skipped, fun id => ?_⟩
  rcases hc.standing id with ⟨hfirst, hin⟩ | haside
  · refine Or.inl ⟨hfirst, ?_⟩
    cases hin with
    | ready progress place => exact Or.inr ⟨.start, by simp, place⟩
    | named progress place mem => cases mem
    | waiting progress place => exact Or.inr ⟨.waiting, by simp, place⟩
    | answering progress place => exact Or.inr ⟨.partialEstimate, by simp, place⟩
    | estimated progress place => exact Or.inl (Or.inl place)
    | failed progress place fault => exact Or.inl (Or.inr ⟨place, fault⟩)
  · exact Or.inr ⟨haside.place, haside.why⟩

theorem Closing.becomes {left : List QueueName} {p : DiskPlan} {q : Option QueueName}
    (hc : Closing left n m) (hb : Becomes id p q m k) (hl : Leaving left (n.place id) p q) :
    Closing left n k := by
  refine ⟨hb.sound, hc.same.trans hb.only.same, hb.alike.skipped.trans hc.skipped, ?_⟩
  exact hb.each (P := fun j p q => Leaving left (n.place j) p q) hl fun j _ => hc.leaving j

/-- Nothing but records on the queue `name` of `m` differs in `k`. -/
structure OnlyOn (name : QueueName) (m k : Night) : Prop where
  hosts : k.hosts = m.hosts
  others : ∀ {id}, m.place id ≠ some name → k.plan id = m.plan id ∧ k.place id = m.place id

namespace OnlyOn

variable {name : QueueName}

theorem refl : OnlyOn name m m := ⟨rfl, fun _ => ⟨rfl, rfl⟩⟩

/-- No record has come to the queue. -/
theorem still (h : OnlyOn name m k) (hp : k.place id = some name) : m.place id = some name := by
  by_contra hm
  exact hm ((h.others hm).2.symm.trans hp)

theorem becomes {p : DiskPlan} {q : Option QueueName} (h : OnlyOn name m k)
    (hp : k.place id = some name) (hb : Becomes id p q k l) : OnlyOn name m l := by
  refine ⟨hb.alike.hosts.trans h.hosts, fun {j} hj => ?_⟩
  have e : j ≠ id := by
    rintro rfl
    exact hj (h.still hp)
  rw [hb.only.plan e, hb.only.place e]
  exact h.others hj

end OnlyOn

structure OnlyOpen (m k : Night) : Prop where
  hosts : k.hosts = m.hosts
  resolved : ∀ {id}, Resolved m id → k.plan id = m.plan id ∧ k.place id = m.place id

theorem OnlyOn.onlyOpen {name : QueueName} (h : OnlyOn name m k)
    (hname : name = .start ∨ name = .waiting ∨ name = .partialEstimate) : OnlyOpen m k := by
  refine ⟨h.hosts, fun {id} hr => h.others fun hp => ?_⟩
  rw [Resolved, hp] at hr
  rcases hname with rfl | rfl | rfl <;> simp at hr

theorem OnlyOpen.trans (hmk : OnlyOpen m k) (hkl : OnlyOpen k l) : OnlyOpen m l := by
  refine ⟨hkl.hosts.trans hmk.hosts, fun {id} hr => ?_⟩
  obtain ⟨hplan, hplace⟩ := hmk.resolved hr
  have hr : Resolved k id := by rwa [Resolved, hplace]
  obtain ⟨hplan', hplace'⟩ := hkl.resolved hr
  exact ⟨hplan'.trans hplan, hplace'.trans hplace⟩

namespace Planning

/-- A loop over a queue that makes every record on it final leaves the queue empty. -/
theorem leads_close {name : QueueName} {left : List QueueName} {close : Nat → Planning Unit}
    (hname : name ≠ .failed)
    (step : ∀ id k, k.Sound → k.place id = some name →
      Leads (close id) k (fun _ l => ∃ p q, Becomes id p q k l ∧ Final p q) fail)
    (hc : Closing (name :: left) n m) :
    Leads ((m.queues.members name).forM close) m
      (fun _ k => Closing left n k ∧ OnlyOn name m k) fail := by
  refine (leads_forM_each
    (I := fun k => Closing (name :: left) n k ∧ OnlyOn name m k)
    (P := fun id k => k.place id = some name)
    (Q := fun id k => Final (k.plan id) (k.place id))
    (hc.sound.valid.nodup name) ?_ ⟨hc, .refl⟩
    fun id hid => hc.sound.place_iff.mpr hid).imp ?_
  · rintro id - k ⟨hk, honly⟩ hp
    apply (step id k hk.sound hp).imp
    rintro _ l ⟨p, q, hb, hf⟩
    have hfirst : n.place id = some .start := by
      rcases hk.leaving id with ⟨hfirst, -⟩ | ⟨e, hwhy⟩
      · exact hfirst
      · rw [hp] at e
        rcases hwhy with e' | ⟨e', -⟩
        · cases e.trans e'
        · exact absurd (Option.some.inj (e.trans e')) hname
    refine ⟨⟨hk.becomes hb (Or.inl ⟨hfirst, Or.inl hf⟩), honly.becomes hp hb⟩, ?_,
      fun j _ hj => ?_⟩
    · rw [hb.plan, hb.place]
      exact hf
    · rw [hb.only.plan hj, hb.only.place hj]
      exact ⟨fun h => h, fun h => h⟩
  · rintro _ k ⟨⟨hk, honly⟩, hall⟩
    refine ⟨⟨hk.sound, hk.same, hk.skipped, fun id => ?_⟩, honly⟩
    rcases hk.leaving id with ⟨hfirst, hf | ⟨other, hmem, hp⟩⟩ | haside
    · exact Or.inl ⟨hfirst, Or.inl hf⟩
    · refine Or.inl ⟨hfirst, ?_⟩
      rcases List.mem_cons.mp hmem with rfl | hmem
      · exact Or.inl (hall id (hc.sound.place_iff.mp (honly.still hp)))
      · exact Or.inr ⟨other, hmem, hp⟩
    · exact Or.inr haside

/-- The end of a record that fails on no queue. -/
theorem leads_closeFailed {p : DiskPlan} (hb : Becomes id p none m k) (reason : String) :
    Leads (do setPlan id fun p => { p with fault := some reason }; enqueue .failed id) k
      (fun _ l => ∃ p q, Becomes id p q m l ∧ Final p q) fail := by
  rw [leads_bind]
  refine leads_setPlan hb (fun _ => ⟨rfl, rfl⟩) fun l hl => ?_
  exact leads_enqueue hl fun l hl => ⟨_, _, hl, Or.inr ⟨rfl, rfl⟩⟩

theorem leads_strand (hs : m.Sound) (hp : m.place id = some .waiting) :
    Leads (strand id) m (fun _ k => ∃ p q, Becomes id p q m k ∧ Final p q) fail := by
  have hb := Becomes.refl hs (hs.lt_of_place hp)
  rw [hp] at hb
  simp only [strand, leads_bind]
  exact leads_remove hb fun k hk => leads_bind.mp (leads_closeFailed hk _)

theorem leads_closePartial (hs : m.Sound) (hp : m.place id = some .partialEstimate) :
    Leads (closePartial id) m (fun _ k => ∃ p q, Becomes id p q m k ∧ Final p q) fail := by
  have hb := Becomes.refl hs (hs.lt_of_place hp)
  rw [hp] at hb
  simp only [closePartial, getPlan, leads_bind, leads_get, leads_pure]
  refine leads_remove hb fun k hk => leads_setPlan hk (fun _ => ⟨rfl, rfl⟩) fun k hk => ?_
  refine (leads_forM_keeps (I := fun l => Becomes id _ none m l) ?_ hk).imp fun _ l hl => ?_
  · exact fun _ _ l hl => leads_say hl _ fun _ hl => hl
  · split
    · exact leads_enqueue hl fun l hl => ⟨_, _, hl, Or.inl rfl⟩
    · exact leads_closeFailed hl _

theorem leads_closeUnasked (hs : m.Sound) (hp : m.place id = some .start) :
    Leads (closeUnasked id) m (fun _ k => ∃ p q, Becomes id p q m k ∧ Final p q) fail := by
  have hb := Becomes.refl hs (hs.lt_of_place hp)
  rw [hp] at hb
  simp only [closeUnasked, leads_bind]
  exact leads_remove hb fun k hk => leads_bind.mp (leads_closeFailed hk _)

/-- At the end every record that was to be asked about is final, and nothing has changed for
those of which nothing more was to come. -/
theorem leads_finish_open (hc : Conversing [] n m) :
    Leads finish m (fun _ k => Closing [] n k ∧ OnlyOpen m k) fail := by
  simp only [finish, leads_bind, leads_get]
  refine (leads_close (by decide : QueueName.waiting ≠ .failed)
    (fun _ _ => leads_strand) hc.closing).imp ?_
  rintro _ k ⟨hk, hmk⟩
  refine (leads_close (by decide : QueueName.partialEstimate ≠ .failed)
    (fun _ _ => leads_closePartial) hk).imp ?_
  rintro _ l ⟨hl, hkl⟩
  refine (leads_close (by decide : QueueName.start ≠ .failed)
    (fun _ _ => leads_closeUnasked) hl).imp ?_
  rintro _ x ⟨hx, hlx⟩
  have hml := (hmk.onlyOpen (by simp)).trans (hkl.onlyOpen (by simp))
  exact ⟨hx, hml.trans (hlx.onlyOpen (by simp))⟩

theorem leads_finish (hc : Conversing [] n m) :
    Leads finish m (fun _ k => Closing [] n k) fail :=
  (leads_finish_open hc).imp fun _ _ hk => hk.1

end Planning

end NightlyBackup
