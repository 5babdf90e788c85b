import Mathlib.Data.List.Forall2

/-!
What an action leads to: the state and the result that it ends with, or the fault that ends
it and the state that the fault leaves behind. Loops over lists are described once here, by
an invariant or by what every visit does to the element that it visits.
-/

namespace NightlyBackup

/-- `act`, begun in `s`, ends as `post` says, or in a fault as `fail` says. -/
def Leads {ε σ α : Type} (act : EStateM ε σ α) (s : σ) (post : α → σ → Prop)
    (fail : ε → σ → Prop) : Prop :=
  match act s with
  | .ok a t => post a t
  | .error e t => fail e t

/-- No fault ends the action. -/
def never {ε σ : Type} (_ : ε) (_ : σ) : Prop := False

/-- Nothing is said of how a fault ends the action. -/
def anyhow {ε σ : Type} (_ : ε) (_ : σ) : Prop := True

section
variable {ε σ α β ι : Type} {act : EStateM ε σ α} {s t : σ} {a : α}
  {post post' : α → σ → Prop} {fail fail' : ε → σ → Prop}

theorem leads_iff_of_ok (h : act s = .ok a t) : Leads act s post fail ↔ post a t := by
  simp only [Leads, h]

theorem leads_of_ok (h : act s = .ok a t) (hp : post a t) : Leads act s post fail :=
  (leads_iff_of_ok h).mpr hp

/-- Actions that do the same lead to the same. -/
theorem leads_congr {act' : EStateM ε σ α} (h : act s = act' t) :
    Leads act s post fail ↔ Leads act' t post fail := by
  simp only [Leads, h]

/-- Where nothing is said of faults, only a run that ends without one matters. -/
theorem leads_anyhow (h : ∀ a t, act s = .ok a t → post a t) : Leads act s post anyhow := by
  unfold Leads
  cases e : act s with
  | ok a t => exact h a t e
  | error _ _ => trivial

theorem Leads.ok (h : Leads act s post fail) (e : act s = .ok a t) : post a t :=
  (leads_iff_of_ok e).mp h

theorem Leads.failed {e : ε} (h : Leads act s post fail) (he : act s = .error e t) : fail e t := by
  rw [Leads, he] at h
  exact h

theorem Leads.reached (h : Leads act s post never) (e : act s = .ok a t) : post a t :=
  h.ok e

theorem Leads.exists_ok (h : Leads act s post never) : ∃ a t, act s = .ok a t ∧ post a t := by
  unfold Leads at h
  cases e : act s with
  | ok a t => exact ⟨a, t, rfl, by rw [e] at h; exact h⟩
  | error f t => rw [e] at h; exact h.elim

theorem Leads.outcome (h : Leads act s post fail) :
    (∃ a t, act s = .ok a t ∧ post a t) ∨ ∃ e t, act s = .error e t ∧ fail e t := by
  unfold Leads at h
  cases e : act s with
  | ok a t => rw [e] at h; exact Or.inl ⟨a, t, rfl, h⟩
  | error f t => rw [e] at h; exact Or.inr ⟨f, t, rfl, h⟩

theorem Leads.mono (h : Leads act s post fail) (hp : ∀ a t, post a t → post' a t)
    (hf : ∀ e t, fail e t → fail' e t) : Leads act s post' fail' := by
  unfold Leads at h ⊢
  split at h
  · exact hp _ _ h
  · exact hf _ _ h

theorem Leads.imp (h : Leads act s post fail) (hp : ∀ a t, post a t → post' a t) :
    Leads act s post' fail :=
  h.mono hp fun _ _ => id

/-- What never faults may be said to fault in any way. -/
theorem Leads.weaken (h : Leads act s post never) (hp : ∀ a t, post a t → post' a t) :
    Leads act s post' fail :=
  h.mono hp fun _ _ => False.elim

theorem Leads.and (h : Leads act s post fail) (h' : Leads act s post' fail') :
    Leads act s (fun a t => post a t ∧ post' a t) (fun e t => fail e t ∧ fail' e t) := by
  unfold Leads at h h' ⊢
  cases e : act s with
  | ok a t => rw [e] at h h'; exact ⟨h, h'⟩
  | error f t => rw [e] at h h'; exact ⟨h, h'⟩

/-- The run itself may be kept beside what it leads to. -/
theorem Leads.run (h : Leads act s post fail) :
    Leads act s (fun a t => act s = .ok a t ∧ post a t) fail := by
  unfold Leads at h ⊢
  cases e : act s with
  | ok a t => rw [e] at h; exact ⟨rfl, h⟩
  | error f t => rw [e] at h; exact h

/-- What an action leads to can be found out by doing it. -/
def decidableResult [∀ a t, Decidable (post a t)] [∀ e t, Decidable (fail e t)] :
    (r : EStateM.Result ε σ α) →
      Decidable (match r with | .ok a t => post a t | .error e t => fail e t)
  | .ok a t => inferInstanceAs (Decidable (post a t))
  | .error e t => inferInstanceAs (Decidable (fail e t))

instance [∀ a t, Decidable (post a t)] [∀ e t, Decidable (fail e t)] :
    Decidable (Leads act s post fail) := decidableResult (act s)

instance (e : ε) (t : σ) : Decidable (never e t) := inferInstanceAs (Decidable False)

/-! ## Elementary actions -/

@[simp]
theorem leads_pure : Leads (pure a : EStateM ε σ α) s post fail ↔ post a s := Iff.rfl

@[simp]
theorem leads_bind {next : α → EStateM ε σ β} {post : β → σ → Prop} :
    Leads (act >>= next) s post fail ↔
      Leads act s (fun a t => Leads (next a) t post fail) fail := by
  simp only [Leads, bind, EStateM.bind]
  cases act s <;> rfl

/-- What follows an action goes on where the action ends. -/
theorem bind_of_ok {next : α → EStateM ε σ β} (h : act s = .ok a t) :
    (act >>= next) s = next a t := by
  simp only [bind, EStateM.bind, h]

theorem ok_of_bind {next : α → EStateM ε σ β} {b : β} {u : σ}
    (h : (act >>= next) s = .ok b u) : ∃ a t, act s = .ok a t ∧ next a t = .ok b u := by
  simp only [bind, EStateM.bind] at h
  cases e : act s with
  | ok a t => exact ⟨a, t, rfl, by rwa [e] at h⟩
  | error f t => rw [e] at h; cases h

theorem ok_of_get {next : σ → EStateM ε σ β} {b : β} {u : σ}
    (h : (get >>= next) s = .ok b u) : next s s = .ok b u := h

@[simp]
theorem leads_map {f : α → β} {post : β → σ → Prop} :
    Leads (f <$> act) s post fail ↔ Leads act s (fun a t => post (f a) t) fail := by
  simp only [Leads, Functor.map, EStateM.map]
  cases act s <;> rfl

@[simp]
theorem leads_get {post : σ → σ → Prop} :
    Leads (get : EStateM ε σ σ) s post fail ↔ post s s := Iff.rfl

@[simp]
theorem leads_modify {f : σ → σ} {post : Unit → σ → Prop} :
    Leads (modify f : EStateM ε σ Unit) s post fail ↔ post () (f s) := Iff.rfl

@[simp]
theorem leads_throw {e : ε} : Leads (throw e : EStateM ε σ α) s post fail ↔ fail e s := Iff.rfl

/-! ## Loops -/

/-- What every visit keeps, the loop keeps. -/
theorem leads_forM_keeps {visit : ι → EStateM ε σ Unit} {I : σ → Prop} :
    ∀ {ids : List ι} {s : σ},
      (∀ id ∈ ids, ∀ s, I s → Leads (visit id) s (fun _ t => I t) fail) → I s →
        Leads (ids.forM visit) s (fun _ t => I t) fail
  | [], _, _, hs => hs
  | id :: ids, s, step, hs => by
    show Leads (visit id >>= fun _ => ids.forM visit) s _ fail
    rw [leads_bind]
    exact (step id (List.mem_cons_self ..) s hs).imp fun _ t ht =>
      leads_forM_keeps (fun j hj => step j (List.mem_cons_of_mem _ hj)) ht

/-- The same for a loop that hands a value on. -/
theorem leads_foldlM_keeps {visit : β → ι → EStateM ε σ β} {I : β → σ → Prop} :
    ∀ {ids : List ι} {b : β} {s : σ},
      (∀ id ∈ ids, ∀ b s, I b s → Leads (visit b id) s I fail) → I b s →
        Leads (ids.foldlM visit b) s I fail
  | [], _, _, _, hs => hs
  | id :: ids, b, s, step, hs => by
    rw [List.foldlM_cons, leads_bind]
    exact (step id (List.mem_cons_self ..) b s hs).imp fun _ _ ht =>
      leads_foldlM_keeps (fun j hj => step j (List.mem_cons_of_mem _ hj)) ht

/-- A loop with results ends where the loop without them ends. -/
theorem leads_forM_iff_mapM {visit : ι → EStateM ε σ Unit} {post : Unit → σ → Prop} :
    ∀ {ids : List ι} {s : σ}, Leads (ids.forM visit) s post fail ↔
      Leads (ids.mapM visit) s (fun _ t => post () t) fail
  | [], _ => Iff.rfl
  | id :: ids, s => by
    have hrest : ∀ t, Leads (ids.forM visit) t post fail ↔
        Leads (ids.mapM visit) t (fun _ t => post () t) fail :=
      fun _ => leads_forM_iff_mapM
    show Leads (visit id >>= fun _ => ids.forM visit) s post fail ↔ _
    simp only [List.mapM_cons, leads_bind, leads_pure, hrest]

/-- A loop over different elements: a visit turns `P` into `Q` at its own element,
with its result, and keeps both at all the others. -/
theorem leads_mapM_each {visit : ι → EStateM ε σ β} {P : ι → σ → Prop}
    {Q : ι → β → σ → Prop} {ids : List ι} {I : σ → Prop} {s : σ} (hd : ids.Nodup)
    (step : ∀ id ∈ ids, ∀ s, I s → P id s →
      Leads (visit id) s (fun b t => I t ∧ Q id b t ∧
        ∀ j ∈ ids, j ≠ id → (P j s → P j t) ∧ ∀ b, Q j b s → Q j b t) fail)
    (hs : I s) (hb : ∀ id ∈ ids, P id s) :
    Leads (ids.mapM visit) s (fun bs t => I t ∧ List.Forall₂ (Q · · t) ids bs) fail := by
  induction ids generalizing I s with
  | nil => exact ⟨hs, .nil⟩
  | cons id ids ih =>
    obtain ⟨hid, hd⟩ := List.nodup_cons.mp hd
    have hne : ∀ j ∈ ids, j ≠ id := fun j hj e => hid (e ▸ hj)
    simp only [List.mapM_cons, leads_bind, leads_pure]
    refine (step id (List.mem_cons_self ..) s hs (hb id (List.mem_cons_self ..))).imp ?_
    rintro b t ⟨ht, hafter, hkeep⟩
    -- What the first visit reached is part of the invariant of the others.
    refine (ih (I := fun t => I t ∧ Q id b t) hd ?_ ⟨ht, hafter⟩ ?_).imp ?_
    · rintro j hj u ⟨hu, ha⟩ hbj
      refine (step j (List.mem_cons_of_mem _ hj) u hu hbj).imp ?_
      rintro c v ⟨hv, hc, hk⟩
      exact ⟨⟨hv, (hk id (List.mem_cons_self ..) (hne j hj).symm).2 b ha⟩, hc,
        fun k hm => hk k (List.mem_cons_of_mem _ hm)⟩
    · intro j hj
      exact (hkeep j (List.mem_cons_of_mem _ hj) (hne j hj)).1 (hb j (List.mem_cons_of_mem _ hj))
    · rintro bs u ⟨⟨hu, ha⟩, hall⟩
      exact ⟨hu, .cons ha hall⟩

/-- Every element has its partner. -/
theorem exists_of_forall₂ {R : ι → β → Prop} {as : List ι} {bs : List β} {a : ι}
    (h : List.Forall₂ R as bs) (ha : a ∈ as) : ∃ b ∈ bs, R a b := by
  induction h with
  | nil => cases ha
  | @cons _ b _ _ hab _ ih =>
    rcases List.mem_cons.mp ha with rfl | ha
    · exact ⟨b, List.mem_cons_self .., hab⟩
    · obtain ⟨c, hc, hac⟩ := ih ha
      exact ⟨c, List.mem_cons_of_mem _ hc, hac⟩

/-- The same for a loop without results. -/
theorem leads_forM_each {visit : ι → EStateM ε σ Unit} {P Q : ι → σ → Prop}
    {ids : List ι} {I : σ → Prop} {s : σ} (hd : ids.Nodup)
    (step : ∀ id ∈ ids, ∀ s, I s → P id s →
      Leads (visit id) s (fun _ t => I t ∧ Q id t ∧
        ∀ j ∈ ids, j ≠ id → (P j s → P j t) ∧ (Q j s → Q j t)) fail)
    (hs : I s) (hb : ∀ id ∈ ids, P id s) :
    Leads (ids.forM visit) s (fun _ t => I t ∧ ∀ id ∈ ids, Q id t) fail := by
  refine leads_forM_iff_mapM.mpr ((leads_mapM_each (Q := fun id _ t => Q id t)
    hd ?_ hs hb).imp ?_)
  · intro id hid s hs hb
    refine (step id hid s hs hb).imp ?_
    rintro _ t ⟨ht, ha, hk⟩
    exact ⟨ht, ha, fun j hj hne => ⟨(hk j hj hne).1, fun _ => (hk j hj hne).2⟩⟩
  · rintro _ t ⟨ht, hall⟩
    refine ⟨ht, fun id hid => ?_⟩
    obtain ⟨_, _, h⟩ := exists_of_forall₂ hall hid
    exact h
end

end NightlyBackup
