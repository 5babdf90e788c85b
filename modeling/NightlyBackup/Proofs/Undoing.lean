import NightlyBackup.Proofs.Economy

/-!
What an undo brings back. Whatever is done to a schedule, nothing of a plan changes but the choice
of the dump, the fault and which sizes on media stand. So when every change of a dump has been
undone, the dump is on the schedule again as it was; only the fault that was noted when it was
dropped is not taken back.
-/

namespace NightlyBackup

open Night Planning Delaying

variable {a n f k : Night} {s t u : Shrinking} {id slot : Nat} {p q : DiskPlan}
  {images : List BeforeImage} {image : BeforeImage} {fault : Option String}

/-! ## Plans -/

namespace DiskPlan

/-- `q` differs from `p` at most in the dump that is chosen, in the fault, and in sizes on media
that are held on to. -/
def Altered (p q : DiskPlan) : Prop := p.Held { q with dump := p.dump, fault := p.fault }

/-- `q` is `p` but for the fault; sizes on media may be held on to. -/
def AsBefore (p q : DiskPlan) : Prop := p.Held { q with fault := p.fault }

namespace Altered

theorem refl (p : DiskPlan) : p.Altered p := Relation.ReflTransGen.refl

theorem fixMedia (h : p.Altered q) (slot : Nat) : p.Altered (q.fixMedia slot) :=
  Relation.ReflTransGen.tail h ⟨slot, rfl⟩

theorem withDump (h : p.Altered q) (dump : Option Nat) : p.Altered { q with dump := dump } := h

theorem withFault (h : p.Altered q) (fault : Option String) :
    p.Altered { q with fault := fault } := h

/-- With its dump chosen again, a plan is as before. -/
theorem asBefore (h : p.Altered q) (hd : q.dump = p.dump) : p.AsBefore q := by
  unfold Altered at h
  rw [← hd] at h
  exact h

end Altered

end DiskPlan

/-- Every plan of `n` is that of `a`, but for what making the schedule fit may change. -/
def Night.Altered (a n : Night) : Prop := ∀ id, (a.plan id).Altered (n.plan id)

namespace Night.Altered

theorem change (hl : Logged a s.night s.log) (h : a.Altered s.night) (hc : Change s t) :
    a.Altered t.night := by
  cases hc with
  | @delayed _ _ id delete reason hp hf hact =>
    obtain ⟨-, -, p, q, tot, hb, hoff⟩ := (leads_delay hl.orderly hp hf).reached hact
    intro j
    refine hb.each (P := fun j p _ => (a.plan j).Altered p) ?_ (fun j _ => h j) j
    unfold PutOff at hoff
    cases delete with
    | true =>
      obtain ⟨rfl, -⟩ := hoff
      exact (h id).withFault _
    | false =>
      obtain ⟨⟨d, -, rfl⟩, -⟩ := hoff
      exact ((h id).withDump _).fixMedia d
  | @undone n k later older image hact =>
    have himage := hl.faithful image (by simp)
    cases (leads_undoIfFits hl.orderly himage).reached hact with
    | undone _ _ hk =>
      obtain ⟨-, -, tot, hb⟩ := hk
      intro j
      refine hb.each (P := fun j p _ => (a.plan j).Altered p) ?_ (fun j _ => h j) j
      exact (h image.record).withDump _
  | reckoned n log what => exact h
  | looked n log id slot =>
    intro j
    exact plan_setPlan_cases (P := (a.plan j).Altered) ((h j).fixMedia slot) (h j)

theorem changes (hl : Logged a s.night s.log) (h : a.Altered s.night) (hc : Changes s t) :
    a.Altered t.night := by
  induction hc with
  | refl => exact h
  | tail hc hstep ih => exact ih.change (hl.changes hc) hstep

end Night.Altered

/-! ## Faults -/

namespace Delaying

theorem message_congr {m : Night} (hdisks : n.SameDisks m) (hrun : SameRun n m) (level : Nat)
    (reason : String) : message m id level reason = message n id level reason := by
  obtain ⟨hhost, hdisk⟩ := Prod.mk.inj (hdisks.title id)
  rw [message, message, hhost, hdisk, hrun.timestamp]

/-- The image tells that the dump of a record was dropped, and why. -/
structure BlamedOn (n : Night) (id : Nat) (fault : Option String) (image : BeforeImage) : Prop where
  record : image.record = id
  deleted : image.deleted = true
  reason : ∃ reason, fault = some reason ∧ image.message = message n id image.level reason

/-- The fault of a record is that in `n`, or that of the drop of which the images tell. -/
def FaultOf (n : Night) (id : Nat) (images : List BeforeImage) (fault : Option String) : Prop :=
  (fault = (n.plan id).fault ∧ ∀ image ∈ images, image.record = id → image.deleted = false) ∨
    ∃ image ∈ images, BlamedOn n id fault image

namespace FaultOf

theorem congr {m : Night} (h : FaultOf m id images fault) (hdisks : n.SameDisks m)
    (hrun : SameRun n m) (hfault : (m.plan id).fault = (n.plan id).fault) :
    FaultOf n id images fault := by
  rcases h with ⟨hsame, hnone⟩ | ⟨image, hi, hrecord, hdeleted, reason, hp, hmessage⟩
  · exact Or.inl ⟨hsame.trans hfault, hnone⟩
  · exact Or.inr ⟨image, hi, hrecord, hdeleted, reason, hp,
      hmessage.trans (message_congr hdisks hrun _ _)⟩

theorem cons (h : FaultOf n id images fault) (himage : image.record = id → image.deleted = false) :
    FaultOf n id (image :: images) fault := by
  rcases h with ⟨hsame, hnone⟩ | ⟨drop, hi, hblamed⟩
  · exact Or.inl ⟨hsame, List.forall_mem_cons.mpr ⟨himage, hnone⟩⟩
  · exact Or.inr ⟨drop, List.mem_cons_of_mem _ hi, hblamed⟩

end FaultOf

/-- The fault of a record changes when its dump is dropped, and only then. -/
theorem Thinned.faultOf (h : Thinned s images t) (id : Nat) :
    FaultOf s.night id images (t.night.plan id).fault := by
  induction h with
  | refl => exact Or.inl ⟨rfl, by simp⟩
  | @looked s _ _ i slot _ ih =>
    have honly : OnlyAt i s.night (s.night.setPlan i (·.fixMedia slot)) :=
      .setPlan fun p => Planning.fixMedia_keeps p slot
    exact ih.congr honly.same ⟨rfl, rfl, rfl, rfl, rfl, length_setPlan⟩
      (plan_setPlan_cases (P := fun p => p.fault = (s.night.plan id).fault) rfl rfl)
  | @delayed s t u image images hd hrest ih =>
    obtain ⟨reason, himage, hoff⟩ := hd.putOff
    by_cases hdrop : image.record = id ∧ image.deleted = true
    · obtain ⟨rfl, hdeleted⟩ := hdrop
      rw [hdeleted] at hoff
      obtain ⟨hplan, hplace⟩ := hoff
      -- what has been dropped is not put off once more
      have hnot : ∀ i ∈ images, i.record ≠ image.record := hrest.not_put_off (by simp [hplace])
      have hfault : (u.night.plan image.record).fault = some reason := by
        rw [(hrest.others hnot).2.keeps (f := DiskPlan.fault) fun _ _ => rfl, hplan]
      have hlevel := congrArg BeforeImage.level himage
      have hmessage := congrArg BeforeImage.message himage
      refine Or.inr ⟨image, List.mem_cons_self, rfl, hdeleted, reason, hfault, ?_⟩
      exact hmessage.trans (congrArg (message s.night image.record · reason) hlevel.symm)
    · have hfault : (t.night.plan id).fault = (s.night.plan id).fault := by
        by_cases e : image.record = id
        · subst e
          rw [eq_false_of_ne_true fun hdeleted => hdrop ⟨rfl, hdeleted⟩] at hoff
          obtain ⟨⟨d, -, hplan⟩, -⟩ := hoff
          rw [hplan]
          rfl
        · rw [hd.plan (Ne.symm e)]
      exact (ih.congr hd.disks hd.run hfault).cons fun e =>
        eq_false_of_ne_true fun hdeleted => hdrop ⟨e, hdeleted⟩

/-- No fault is taken back. -/
theorem Undone.same_fault {total : Nat} (h : Undone image n total k) (id : Nat) :
    (k.plan id).fault = (n.plan id).fault := by
  obtain ⟨-, -, tot, hb⟩ := h
  exact hb.each (P := fun j p _ => p.fault = (n.plan j).fault) rfl (fun _ _ => rfl) id

end Delaying

/-- **Undoing.** A record that was scheduled and of which no change stands is on the schedule again
when fitting has ended, with the same dump and fallback, the same levels and sizes, priority and
dates. Its fault is the one from before, unless its dump had been dropped: then the reason for this
has remained. -/
theorem undone_as_before (ha : a.Orderly) :
    ∃ s kept r f, delayDumps ⟨a, []⟩ = .ok () s ∧ reinstate s = .ok kept r ∧
      (fit a = .ok () f ∨ ∃ why, fit a = .error (.unfittable why) f) ∧
      ∀ id ∈ a.scheduled, (∀ image ∈ kept, image.record ≠ id) →
        id ∈ f.scheduled ∧ (a.plan id).AsBefore (f.plan id) ∧
          FaultOf a id s.log.reverse (f.plan id).fault := by
  obtain ⟨r, f, h, hfit⟩ := exists_fitted ha
  obtain ⟨t, hchanged, ht⟩ := h.changed
  obtain ⟨_, s, hdelayed, hreinstated⟩ := ok_of_bind hchanged
  have hmake : Leads delayDumps ⟨a, []⟩ _ never := leads_passes_thinned ha
  obtain ⟨x, _, _, fulls, forced, incrementals, -, hthinned⟩ := hmake.reached hdelayed
  have hrun := hthinned.thinned
  have hlog : s.log.reverse = x.log.reverse ++ fulls ++ (forced ++ incrementals) := by
    rw [hrun.log, List.append_nil, List.reverse_reverse]
  have hl : Logged a s.night s.log := Logged.changes (s := ⟨a, []⟩) (.refl ha) hrun.changes
  have hkeeps : Leads (reinstateFrom [] s.log) s _ never := leads_reinstateFrom_keeps
    (I := fun n _ _ => ∀ id, (n.plan id).fault = (s.night.plan id).fault)
    (fun _ _ _ _ hk hn id => (hk.same_fault id).trans (hn id)) (fun _ _ hn => hn)
    (fun _ hn => hn) hl fun _ => rfl
  obtain ⟨-, hfaults⟩ := hkeeps.reached (ok_of_get hreinstated)
  rw [ht] at hfaults
  have haltered : a.Altered r.night :=
    Night.Altered.changes (s := ⟨a, []⟩) (.refl ha) (fun id => .refl _) h.changes
  refine ⟨s, r.log.reverse, t, f, hdelayed, hreinstated, hfit, fun id hid hnone => ?_⟩
  obtain ⟨-, hfate⟩ := h.explained ha id (ha.sound.mem_scheduled.mp hid)
  have himages : imagesOf id r.log = [] := List.filter_eq_nil_iff.mpr fun image hi =>
    by simpa using hnone image (List.mem_reverse.mpr hi)
  rw [himages] at hfate
  generalize hplace : r.night.place id = place at hfate
  cases hfate with
  | stays dump =>
    have hp : f.place id = some .scheduled := h.reported.scheduled_iff.mpr hplace
    rw [h.reported.plan, hfaults id, hlog]
    exact ⟨(h.orderly ha).sound.mem_scheduled.mpr hp, (haltered id).asBefore dump, hrun.faultOf id⟩

/-- A tape on which a full dump falls back and is dropped before a bigger dump is, which makes room
for it again. -/
def relieved : Night := threeDumps 1000 100 50 750 150

set_option synthInstance.maxSize 1000 in
theorem leads_reinstate_relieved : Leads (do delayDumps; reinstate) ⟨relieved, []⟩
    (fun kept _ => kept.map (·.record) = [2]) never := by
  decide +kernel

set_option synthInstance.maxSize 1000 in
theorem leads_fit_relieved : Leads fit relieved (fun _ f =>
    (f.plan 0).fault = some "dumps way too big, 50 KB, must skip incremental dumps") never := by
  decide +kernel

/-- No change of the first dump stands on the relieved tape. -/
theorem relieved_undone_as_before : relieved.Orderly ∧ 0 ∈ relieved.scheduled ∧
    ∃ s kept r f, delayDumps ⟨relieved, []⟩ = .ok () s ∧ reinstate s = .ok kept r ∧
      fit relieved = .ok () f ∧ kept.map (·.record) = [2] ∧ 0 ∈ f.scheduled ∧
      (relieved.plan 0).AsBefore (f.plan 0) ∧
      FaultOf relieved 0 s.log.reverse (f.plan 0).fault := by
  have horderly : relieved.Orderly := threeDumps_orderly ..
  have hmem : 0 ∈ relieved.scheduled := by decide
  obtain ⟨s, kept, r, f, hdelayed, hreinstated, hfit, hundone⟩ := undone_as_before horderly
  have hkept : kept.map (·.record) = [2] :=
    leads_reinstate_relieved.reached ((bind_of_ok hdelayed).trans hreinstated)
  have hnone : ∀ image ∈ kept, image.record ≠ 0 := by
    intro image hi hrecord
    have hmem := List.mem_map_of_mem (f := (·.record)) hi
    rw [hkept, hrecord] at hmem
    exact absurd hmem (by decide)
  obtain ⟨_, g, hrun, -⟩ := leads_fit_relieved.exists_ok
  have hok : fit relieved = .ok () f := by
    rcases hfit with hok | ⟨_, hfail⟩
    · exact hok
    · cases hrun.symm.trans hfail
  exact ⟨horderly, hmem, s, kept, r, f, hdelayed, hreinstated, hok, hkept, hundone 0 hmem hnone⟩

/-- The first dump of the relieved tape is back on the schedule, and the reason for which it was
dropped is still noted. -/
theorem relieved_fault_remains : relieved.Orderly ∧ 0 ∈ relieved.scheduled ∧
    ∃ s kept r f, delayDumps ⟨relieved, []⟩ = .ok () s ∧ reinstate s = .ok kept r ∧
      fit relieved = .ok () f ∧ kept.map (·.record) = [2] ∧
      (f.plan 0).fault ≠ (relieved.plan 0).fault := by
  obtain ⟨kept, r, hchanged, hkept⟩ := leads_reinstate_relieved.exists_ok
  obtain ⟨_, s, hdelayed, hreinstated⟩ := ok_of_bind hchanged
  obtain ⟨_, f, hfit, hfault⟩ := leads_fit_relieved.exists_ok
  refine ⟨threeDumps_orderly .., by decide, s, kept, r, f, hdelayed, hreinstated, hfit, hkept, ?_⟩
  rw [hfault]
  decide

end NightlyBackup
