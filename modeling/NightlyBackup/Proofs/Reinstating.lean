import NightlyBackup.Proofs.Yielding

/-!
Undoing what need not stand. The log is gone through from the newest change back, and a change
is undone if the schedule fits then. A fallback that is too big for one run replaced a full
dump that is not; as long as the schedule fits, undoing this makes it smaller, so that no such
fallback is left at the end.
-/

namespace NightlyBackup

open Night Delaying

variable {a n k : Night} {s t : Shrinking} {log older kept : List BeforeImage}
  {image : BeforeImage} {id total : Nat} {fail : Fault → Shrinking → Prop}

/-- A scheduled dump is not too big for one run, or the log knows a dump that it replaced and
that is not. -/
def Covered (log : List BeforeImage) (n : Night) : Prop :=
  ∀ id, n.place id = some .scheduled → n.Bounded id ∨ ∃ image ∈ log, image.record = id ∧
    image.deleted = false ∧ image.mediaSize ≤ n.media.ceiling (n.plan id).disk

namespace Covered

theorem of_bounded (h : ∀ {id}, n.place id = some .scheduled → n.Bounded id) : Covered log n :=
  fun _ hp => Or.inl (h hp)

/-- The images of other records stay in the log. -/
theorem undone (h : Covered log n) (hfits : Fits n image total) (hk : Undone image n total k)
    (hi : Faithful image (n.plan image.record) (n.place image.record)) {rest : List BeforeImage}
    (hrest : ∀ i ∈ log, i.record ≠ image.record → i ∈ rest) : Covered rest k := by
  obtain ⟨-, -, tot, hb⟩ := hk
  have hmedia : k.media = n.media := hb.alike.media
  intro j hj
  by_cases e : j = image.record
  · left
    rw [e, Night.Bounded, hb.plan, hi.putBack_size, hmedia]
    exact hfits.2
  · have hplan : k.plan j = n.plan j := hb.only.plan e
    have hplace : k.place j = n.place j := hb.only.place e
    rw [Night.Bounded, hmedia, hplan]
    refine (h j (hplace.symm.trans hj)).imp_right ?_
    rintro ⟨i, hi, hr, hd⟩
    exact ⟨i, hrest i hi (fun er => e (hr.symm.trans er)), hr, hd⟩

theorem delayed {delete : Bool} {reason : String} {tot : Totals} {p : DiskPlan}
    {q : Option QueueName} (h : Covered s.log s.night)
    (hp : s.night.place id = some .scheduled)
    (hlog : t.log = imageOf s.night id delete reason :: s.log)
    (hb : Becomes id p q (s.night.withTotals tot) t.night)
    (hoff : PutOff (s.night.plan id) delete reason p q) : Covered t.log t.night := by
  have hmedia : t.night.media = s.night.media := hb.alike.media
  intro j hj
  rw [hlog]
  by_cases e : j = id
  · right
    subst e
    rw [hb.place] at hj
    rw [hmedia, hb.plan]
    unfold PutOff at hoff
    cases delete with
    | true => cases hoff.2.symm.trans hj
    | false =>
      obtain ⟨⟨d, -, rfl⟩, -⟩ := hoff
      rcases h j hp with hbounded | ⟨i, hi, hr⟩
      · exact ⟨_, List.mem_cons_self .., rfl, rfl, hbounded⟩
      · exact ⟨i, List.mem_cons_of_mem _ hi, hr⟩
  · have hplan : t.night.plan j = s.night.plan j := hb.only.plan e
    have hplace : t.night.place j = s.night.place j := hb.only.place e
    rw [Night.Bounded, hmedia, hplan]
    refine (h j (hplace.symm.trans hj)).imp_right ?_
    rintro ⟨i, hi, hr⟩
    exact ⟨i, List.mem_cons_of_mem _ hi, hr⟩

theorem looked (h : Covered log n) (slot : Nat) :
    Covered log (n.setPlan id (·.fixMedia slot)) := by
  intro j hj
  have hplan : ((n.setPlan id (·.fixMedia slot)).plan j).dumpMediaSize = (n.plan j).dumpMediaSize ∧
      ((n.setPlan id (·.fixMedia slot)).plan j).disk = (n.plan j).disk :=
    plan_setPlan_cases (P := fun p => p.dumpMediaSize = (n.plan j).dumpMediaSize ∧
      p.disk = (n.plan j).disk) ⟨DiskPlan.dumpMediaSize_fixMedia, rfl⟩ ⟨rfl, rfl⟩
  rw [Night.Bounded, hplan.1, hplan.2]
  exact h j hj

/-- Every change keeps the schedule covered by the log. -/
theorem change (hl : Logged a s.night s.log) (h : Covered s.log s.night) (hc : Change s t) :
    Covered t.log t.night := by
  cases hc with
  | delayed hp hf hact =>
    obtain ⟨hlog, -, p, q, tot, hb, hoff⟩ :=
      (leads_delay hl.orderly hp hf).reached hact
    exact h.delayed hp hlog hb hoff
  | @undone n k later older image hact =>
    have himage := hl.faithful image (by simp)
    cases (leads_undoIfFits hl.orderly himage).reached hact with
    | undone _ hfits hk =>
      refine h.undone hfits hk himage fun i hi hne => ?_
      have hne : i ≠ image := fun e => hne (congrArg BeforeImage.record e)
      simpa [hne] using hi
  | looked n log id slot => exact h.looked slot
  | reckoned => exact h

theorem changes (hl : Logged a s.night s.log) (h : Covered s.log s.night) (hc : Changes s t) :
    Covered t.log t.night := by
  induction hc with
  | refl => exact h
  | tail hc hstep ih => exact ih.change (hl.changes hc) hstep

end Covered

/-! ## Going through the log -/

/-- What the passes reach: the schedule fits and the log covers it, or it does not fit although
only full dumps are left. -/
inductive Shrunk (log : List BeforeImage) (n : Night) : Prop
  | fits (size : n.totals.size ≤ n.media.capacity) (covered : Covered log n)
  | full (size : n.media.capacity < n.totals.size)
    (fulls : ∀ {id}, n.place id = some .scheduled → (n.plan id).isFull = true)

namespace Shrunk

theorem reckoned (h : Shrunk log n) (what : Option Overflow) : Shrunk log (n.reckon what) := by
  cases h with
  | fits size covered => exact .fits size covered
  | full size fulls => exact .full size fulls

/-- A change that cannot be undone is not needed to cover the schedule: if it replaced a dump
that is not too big by one that is, undoing it would make the schedule smaller. -/
theorem passed (h : Shrunk (image :: older) n)
    (hi : Faithful image (n.plan image.record) (n.place image.record))
    (hnot : ∀ total, undoneSize? n image = some total → ¬Fits n image total) :
    Shrunk older n := by
  cases h with
  | full size fulls => exact .full size fulls
  | fits size covered =>
    refine .fits size fun j hj => ?_
    rcases covered j hj with hbounded | ⟨i, hi', hr, hd, hceiling⟩
    · exact Or.inl hbounded
    · rcases List.mem_cons.mp hi' with rfl | hi'
      · left
        rw [← hr] at hj hceiling ⊢
        have hsize := undoneSize?_of_softly hd hj
        have hbig : ¬n.totals.size + i.mediaSize - (n.plan i.record).dumpMediaSize ≤
            n.media.capacity := fun h => hnot _ hsize ⟨h, hceiling⟩
        unfold Night.Bounded
        omega
      · exact Or.inr ⟨i, hi', hr, hd, hceiling⟩

/-- When a change is undone, the schedule still fits. One that does not fit stays as it is: a
dropped dump would make it bigger, and no record on it has fallen back. -/
theorem undone (h : Shrunk (image :: older) n)
    (hi : Faithful image (n.plan image.record) (n.place image.record))
    (htotal : undoneSize? n image = some total) (hfits : Fits n image total)
    (hk : Undone image n total k) : Shrunk older k := by
  have hmedia : k.media = n.media := by
    obtain ⟨-, -, tot, hb⟩ := hk
    exact hb.alike.media
  cases h with
  | fits size covered =>
    refine .fits ?_ (covered.undone hfits hk hi fun i hi hne => ?_)
    · rw [hk.2.1, hmedia]
      exact hfits.1
    · have hne : i ≠ image := fun e => hne (congrArg BeforeImage.record e)
      simpa [hne] using hi
  | full size fulls =>
    have hnow := hi.now
    have hcapacity := hfits.1
    rcases undoneSize?_eq hi htotal with ⟨-, -, rfl⟩ | ⟨hdel, hp, -⟩
    · omega
    · rw [hdel] at hnow
      cases hnow.2.symm.trans (fulls hp)

end Shrunk

/-- A change of a record that `a` has scheduled is undone. -/
theorem Revised.undone (hp : a.place image.record = some .scheduled)
    (hrun : undoIfFits image n = .ok true k) (hk : Undone image n total k)
    (hevents : k.events = n.events) : Revised a ⟨n, kept ++ image :: older⟩ ⟨k, kept ++ older⟩ := by
  obtain ⟨-, -, tot, hb⟩ := hk
  refine ⟨.single (.undone hrun), hevents, fun {j} hj => ?_⟩
  have hplan : k.plan j = n.plan j := hb.only.plan fun e => hj (e ▸ hp)
  exact hplan

namespace Delaying

/-- What undoing one change keeps, and passing one that stands, and reckoning, is kept when the log
is gone through. It may depend on the changes that stand so far, and on those that are still to
come. -/
theorem leads_reinstateFrom_keeps {I : Night → List BeforeImage → List BeforeImage → Prop}
    (hundone : ∀ {n k kept older image total}, Logged a n (kept.reverse ++ image :: older) →
      undoIfFits image n = .ok true k → undoneSize? n image = some total → Fits n image total →
      Undone image n total k → I n kept (image :: older) → I k kept older)
    (hstands : ∀ {n kept older image}, Logged a n (kept.reverse ++ image :: older) →
      (∀ total, undoneSize? n image = some total → ¬Fits n image total) →
      I n kept (image :: older) → I n (image :: kept) older)
    (hreckon : ∀ {n kept older} what, I n kept older → I (n.reckon what) kept older)
    (h : Logged a n (kept.reverse ++ older)) (hI : I n kept older) :
    Leads (reinstateFrom kept older) ⟨n, log⟩
      (fun stands t => Logged a t.night stands.reverse ∧ I t.night stands []) fail := by
  induction older generalizing n kept log with
  | nil =>
    rw [List.append_nil] at h
    exact ⟨h, hI⟩
  | cons image older ih =>
    have hi := h.faithful image (by simp)
    simp only [reinstateFrom, leads_bind, leads_modify, leads_lift]
    have htry : Leads (undoIfFits image) n _ never := leads_undoIfFits h.orderly hi
    refine htry.run.mono ?_ fun _ _ h => h.elim
    rintro done k ⟨hrun, htried⟩
    cases htried with
    | undone htotal hfits hk => exact ih (h.undone htotal hk) (hundone h hrun htotal hfits hk hI)
    | stands what hnever =>
      have hsame : (image :: kept).reverse ++ older = kept.reverse ++ image :: older := by simp
      exact ih (hsame ▸ h.reckoned what) (hreckon what (hstands h hnever hI))

/-- **Reinstating.** Going through the log is a run of changes, and if the passes did what they
could, no dump on a schedule that fits is too big in the end. -/
theorem leads_reinstateFrom (h : Logged a n (kept.reverse ++ older)) :
    Leads (reinstateFrom kept older) ⟨n, log⟩ (fun stands t =>
      Revised a ⟨n, kept.reverse ++ older⟩ ⟨t.night, stands.reverse⟩ ∧
        (Shrunk older n → Shrunk [] t.night)) fail := by
  have hreplay : Leads (reinstateFrom kept older) ⟨n, log⟩ _ fail := leads_reinstateFrom_keeps
    (I := fun m stands rest => Revised a ⟨n, kept.reverse ++ older⟩ ⟨m, stands.reverse ++ rest⟩ ∧
      (Shrunk older n → Shrunk rest m)) ?undone ?stands ?reckon h ⟨.refl, fun h => h⟩
  · refine hreplay.imp fun stands t ⟨_, hrevised, hshrunk⟩ => ⟨?_, hshrunk⟩
    rwa [List.append_nil] at hrevised
  case undone =>
    rintro m k kept older image total hm hrun htotal hfits hk ⟨hrevised, hshrunk⟩
    have hi := hm.faithful image (by simp)
    have hevents : k.events = m.events := (silent_undoIfFits m).ok hrun
    exact ⟨hrevised.trans (.undone (hm.origin image (by simp)) hrun hk hevents),
      fun hs => (hshrunk hs).undone hi htotal hfits hk⟩
  case stands =>
    rintro m kept older image hm hnever ⟨hrevised, hshrunk⟩
    refine ⟨?_, fun hs => (hshrunk hs).passed (hm.faithful image (by simp)) hnever⟩
    rwa [List.reverse_cons, List.append_assoc]
  case reckon =>
    rintro m kept older what ⟨hrevised, hshrunk⟩
    exact ⟨hrevised.trans (.reckoned what), fun hs => (hshrunk hs).reckoned what⟩

theorem leads_reinstate (h : Logged a s.night s.log) :
    Leads reinstate s (fun stands t => Revised a s ⟨t.night, stands.reverse⟩ ∧
      (Shrunk s.log s.night → Shrunk [] t.night)) fail := by
  simp only [reinstate, leads_bind, leads_get]
  exact leads_reinstateFrom h

end Delaying

end NightlyBackup
