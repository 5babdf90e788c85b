import NightlyBackup.Night.Balance
import NightlyBackup.Proofs.Fitting

/-!
Balancing the schedule. A promotion puts the full dump of a record in the place of its
incremental, which becomes the fallback; the accounts change by the difference. What is noted
while a candidate is looked for changes neither of them.
-/

namespace NightlyBackup

open Night Planning

variable {a n m k g f : Night} {id j slot : Nat} {p : DiskPlan} {fail : Fault → Night → Prop}

/-- A plan that could have a full dump at `slot` instead of its incremental. -/
structure DiskPlan.Candidate (p : DiskPlan) (slot : Nat) : Prop where
  incremental : p.isFull = false
  full : p.levelAt? slot = some 0
  sized : p.Sized slot

/-- One step of balancing: a promotion, or a note about a record, or reckoning with an overflow. -/
inductive Rebalance : Night → Night → Prop
  | promoted {n k : Night} {id slot : Nat} {special : Bool} :
    n.place id = some .scheduled → (n.plan id).Candidate slot →
    promote id slot special n = .ok () k → Rebalance n k
  | looked (n : Night) (id slot : Nat) : Rebalance n (n.setPlan id (·.fixMedia slot))
  | scored (n : Night) (id : Nat) (score : Int) :
    Rebalance n (n.setPlan id fun p => { p with promote := score })
  | reckoned (n : Night) (what : Option Overflow) : Rebalance n (n.reckon what)

def Rebalances : Night → Night → Prop := Relation.ReflTransGen Rebalance

def KeepsRoom (n k : Night) : Prop :=
  n.totals.size ≤ n.media.capacity → k.totals.size ≤ n.media.capacity

/-- A run of steps, each of which keeps the room. -/
def RoomyRebalances : Night → Night → Prop :=
  Relation.ReflTransGen fun n k => Rebalance n k ∧ KeepsRoom n k

theorem RoomyRebalances.rebalances (h : RoomyRebalances n k) : Rebalances n k := by
  induction h with
  | refl => exact .refl
  | tail _ hstep ih => exact ih.tail hstep.1

structure Balanced (n k : Night) : Prop where
  orderly : k.Orderly
  same : n.SameDisks k
  skipped : k.skipped = n.skipped
  place : ∀ id, k.place id = n.place id
  fault : ∀ id, (k.plan id).fault = (n.plan id).fault

theorem Balanced.refl (hn : n.Orderly) : Balanced n n :=
  ⟨hn, .refl n, rfl, fun _ => rfl, fun _ => rfl⟩

theorem Balanced.trans (h : Balanced n m) (h' : Balanced m k) : Balanced n k :=
  ⟨h'.orderly, h.same.trans h'.same, h'.skipped.trans h.skipped,
    fun id => (h'.place id).trans (h.place id), fun id => (h'.fault id).trans (h.fault id)⟩

/-! ## Promotions -/

def DiskPlan.promoted (p : DiskPlan) (slot : Nat) : DiskPlan :=
  { p.fixMedia slot with degraded := p.dump, dump := some slot, nextFull := 0 }

namespace DiskPlan

theorem promoted_planned (hp : p.Planned) (hc : p.Candidate slot) :
    (p.promoted slot).Planned := by
  have hsize : ∀ d, (p.promoted slot).mediaSize? d = p.mediaSize? d := fun _ => mediaSize?_fixMedia
  refine ⟨⟨slot, rfl, ?_⟩, fun hd => ?_, fun {d} hd => ?_⟩
  · rw [Sized, hsize]
    exact hc.sized
  · cases hd
    exact standsAt_fixMedia p slot
  · obtain ⟨s, hs, hsized⟩ := hp.sized
    have hd : p.dump = some d := hd
    cases hs.symm.trans hd
    obtain ⟨level, hl⟩ := Option.isSome_iff_exists.mp (levelAt?_isSome hsized)
    have hlevel : (p.promoted slot).levelAt? d = some level := levelAt?_fixMedia.trans hl
    refine ⟨?_, level, hlevel, ?_⟩
    · rw [Sized, hsize]
      exact hsized
    · have hinc := hc.incremental
      rw [isFull_eq_of_dump hs hl] at hinc
      exact Nat.pos_of_ne_zero (of_decide_eq_false hinc)

theorem dumpMediaSize_promoted (p : DiskPlan) (slot : Nat) :
    (p.promoted slot).dumpMediaSize = (p.mediaSize? slot).getD 0 := by
  have h : (p.promoted slot).dumpMediaSize = ((p.fixMedia slot).mediaSize? slot).getD 0 := rfl
  rw [h, mediaSize?_fixMedia]

theorem isFull_promoted (hc : p.Candidate slot) : (p.promoted slot).isFull = true := by
  have hl : (p.promoted slot).levelAt? slot = some 0 := levelAt?_fixMedia.trans hc.full
  exact isFull_eq_of_dump rfl hl

end DiskPlan

namespace Planning

structure Promoted (id slot : Nat) (n k : Night) : Prop where
  balanced : Balanced n k
  media : k.media = n.media
  size : k.totals.size =
    sizeWith n (((n.plan id).mediaSize? slot).getD 0) (n.plan id).dumpMediaSize
  plan : k.plan id = (n.plan id).promoted slot
  others : ∀ {j}, j ≠ id → k.plan j = n.plan j

/-- **Promotion.** The full dump takes the place of the incremental, in the schedule and in the
accounts. -/
theorem leads_promote {special : Bool} (hn : n.Orderly) (hp : n.place id = some .scheduled)
    (hc : (n.plan id).Candidate slot) :
    Leads (promote id slot special) n (fun _ k => Promoted id slot n k) fail := by
  have hplanned := hn.planned hp
  have hb := Becomes.refl hn.sound (hn.sound.lt_of_place hp)
  rw [hp] at hb
  simp only [promote, getPlan, leads_bind, leads_get, leads_pure,
    leads_iff_of_ok (dumpMediaSize_ok hplanned)]
  refine leads_mediaSize? hb fun m hm => ?_
  rw [leads_modify]
  refine leads_setPlan (hm.withTotals _) (fun _ => ⟨rfl, rfl⟩) fun m' hm' => ?_
  replace hm' : Becomes id ((n.plan id).promoted slot) (some .scheduled) _ m' := hm'
  refine leads_resortScheduled hm' (DiskPlan.promoted_planned hplanned hc)
    (fun _ => hn.planned) fun k hk => ?_
  have hsize : m.totals.size = n.totals.size := hm.alike.totals.size
  have hfull : m.totals.fullSize = n.totals.fullSize := hm.alike.totals.fullSize
  refine leads_say hk _ fun k hk => ⟨⟨?_, (sameDisks_withTotals n _).trans hk.only.same,
    hk.alike.skipped, fun j => ?_, fun j => ?_⟩, hk.alike.media, ?_, hk.plan, hk.only.plan⟩
  · obtain ⟨hcost, -⟩ := hn.exact.no_clip hn.sound hp
    refine hn.becomes hk (fun _ => DiskPlan.promoted_planned hplanned hc) ?_ ?_
    · simp only [share, hp, if_true, Totals.reckon]
      rw [DiskPlan.dumpMediaSize_promoted, sizeWith, hsize]
      unfold Media.dumpCost at *
      omega
    · simp only [share, hp, if_true, fullShare, Totals.reckon]
      rw [DiskPlan.dumpMediaSize_promoted, DiskPlan.isFull_promoted hc, hc.incremental, hfull]
      rfl
  · exact hk.each (P := fun j _ q => q = n.place j) hp.symm (fun _ _ => rfl) j
  · exact hk.each (P := fun j p _ => p.fault = (n.plan j).fault) rfl (fun _ _ => rfl) j
  · rw [sizeWith, ← hsize]
    exact hk.alike.totals.size

end Planning

/-! ## Notes -/

namespace DiskPlan

/-- The levels as they were answered: which of their sizes on media stand does not matter. -/
def asAnswered (p : DiskPlan) : List LevelEstimate := p.levels.map fun e => { e with media := none }

theorem levelAt?_eq_asAnswered (p : DiskPlan) (slot : Nat) :
    p.levelAt? slot = p.asAnswered[slot]?.map (·.level) := by
  simp [levelAt?, asAnswered, Function.comp_def]

theorem nativeSize?_eq_asAnswered (p : DiskPlan) (slot : Nat) :
    p.nativeSize? slot = p.asAnswered[slot]?.bind (·.size.kb?) := by
  rw [nativeSize?, asAnswered, List.getElem?_map, Option.bind_map]
  rfl

theorem sizedSlot?_eq_asAnswered (p : DiskPlan) (level : Nat) :
    p.sizedSlot? level = p.asAnswered.findIdx? fun e => e.level = level && e.size.kb?.isSome := by
  simp [sizedSlot?, asAnswered, List.findIdx?_map, Function.comp_def]

theorem asAnswered_fixMedia : (p.fixMedia slot).asAnswered = p.asAnswered := by
  refine List.ext_getElem? fun other => ?_
  simp only [asAnswered, List.getElem?_map, levels_fixMedia, Option.map_map]
  congr 1
  funext e
  simp only [Function.comp_apply]
  split <;> rfl

/-- `q` is the plan `p` after notes were made on it: it may have another score, and sizes that were
looked at stand. Nothing else has changed. -/
structure Noted (p q : DiskPlan) : Prop where
  same : q = { p with promote := q.promote, levels := q.levels }
  levels : q.asAnswered = p.asAnswered
  media : ∀ slot, q.mediaSize? slot = p.mediaSize? slot

namespace Noted

variable {q r : DiskPlan}

theorem refl : p.Noted p := ⟨rfl, rfl, fun _ => rfl⟩

theorem symm (h : p.Noted q) : q.Noted p := by
  refine ⟨?_, h.levels.symm, fun slot => (h.media slot).symm⟩
  exact congrArg (fun x : DiskPlan => { x with promote := p.promote, levels := p.levels })
    h.same.symm

theorem trans (h : p.Noted q) (h' : q.Noted r) : p.Noted r := by
  refine ⟨h'.same.trans ?_, h'.levels.trans h.levels,
    fun slot => (h'.media slot).trans (h.media slot)⟩
  exact congrArg (fun x : DiskPlan => { x with promote := r.promote, levels := r.levels }) h.same

theorem fixMedia : p.Noted (p.fixMedia slot) :=
  ⟨rfl, asAnswered_fixMedia, fun _ => mediaSize?_fixMedia⟩

theorem scored (score : Int) : p.Noted { p with promote := score } := ⟨rfl, rfl, fun _ => rfl⟩

theorem host (h : p.Noted q) : q.host = p.host := by rw [h.same]

theorem disk (h : p.Noted q) : q.disk = p.disk := by rw [h.same]

theorem fault (h : p.Noted q) : q.fault = p.fault := by rw [h.same]

theorem dump (h : p.Noted q) : q.dump = p.dump := by rw [h.same]

theorem degraded (h : p.Noted q) : q.degraded = p.degraded := by rw [h.same]

theorem nextFull (h : p.Noted q) : q.nextFull = p.nextFull := by rw [h.same]

theorem dumpLevel? (h : p.Noted q) : q.dumpLevel? = p.dumpLevel? := by
  have hlevel : q.levelAt? = p.levelAt? := funext fun slot => by
    rw [levelAt?_eq_asAnswered, levelAt?_eq_asAnswered, h.levels]
  rw [dumpLevel?_eq, dumpLevel?_eq, h.dump, hlevel]

theorem isFull (h : p.Noted q) : q.isFull = p.isFull := by
  rw [DiskPlan.isFull, DiskPlan.isFull, h.dumpLevel?]

theorem dumpMediaSize (h : p.Noted q) : q.dumpMediaSize = p.dumpMediaSize := by
  have hmedia : q.mediaSize? = p.mediaSize? := funext h.media
  rw [DiskPlan.dumpMediaSize, DiskPlan.dumpMediaSize, h.dump, hmedia]

theorem positiveSlot? (h : p.Noted q) (level : Nat) :
    q.positiveSlot? level = p.positiveSlot? level := by
  have hnative : q.nativeSize? = p.nativeSize? := funext fun slot => by
    rw [nativeSize?_eq_asAnswered, nativeSize?_eq_asAnswered, h.levels]
  rw [DiskPlan.positiveSlot?, DiskPlan.positiveSlot?, sizedSlot?_eq_asAnswered,
    sizedSlot?_eq_asAnswered, h.levels, hnative]

end Noted

/-- A plan whose full dump at `slot` may be made tonight instead of its incremental: it is not
empty, and not due too far ahead. -/
structure Eligible (p : DiskPlan) (slot : Nat) : Prop where
  incremental : p.isFull = false
  full : p.positiveSlot? 0 = some slot
  near : p.nextFull ≤ p.disk.maxPromoteDay

theorem Eligible.candidate (h : p.Eligible slot) : p.Candidate slot :=
  have ⟨hsized, hfull⟩ := sized_of_positiveSlot? h.full
  ⟨h.incremental, hfull, hsized⟩

theorem Eligible.noted {q : DiskPlan} (h : p.Eligible slot) (hq : p.Noted q) : q.Eligible slot :=
  ⟨hq.isFull.trans h.incremental, (hq.positiveSlot? 0).trans h.full, by
    rw [hq.nextFull, hq.disk]
    exact h.near⟩

end DiskPlan

/-- A note about a record changes neither its dump nor whether the dump can be made. -/
structure Harmless (f : DiskPlan → DiskPlan) : Prop where
  noted : ∀ p : DiskPlan, p.Noted (f p)
  planned : ∀ {p : DiskPlan}, p.Planned → (f p).Planned

theorem harmless_fixMedia (slot : Nat) : Harmless (·.fixMedia slot) where
  noted _ := .fixMedia
  planned h := h.fixMedia

theorem harmless_score (score : Int) : Harmless fun p => { p with promote := score } where
  noted _ := .scored score
  planned h := ⟨h.sized, h.stands, h.fallback⟩

theorem Harmless.balanced {f : DiskPlan → DiskPlan} (hf : Harmless f) (hn : n.Orderly)
    (id : Nat) : Balanced n (n.setPlan id f) := by
  have honly : OnlyAt id n (n.setPlan id f) :=
    .setPlan fun p => ⟨(hf.noted p).host, congrArg Disk.name (hf.noted p).disk⟩
  refine ⟨hn.setPlan id (fun _ => hf.planned)
    fun p => ⟨(hf.noted p).dumpMediaSize, (hf.noted p).isFull⟩, honly.same, rfl, fun _ => rfl,
    fun j => ?_⟩
  exact plan_setPlan_cases (P := fun p => p.fault = (n.plan j).fault) (hf.noted _).fault rfl

theorem Night.Orderly.balanced_reckon (hn : n.Orderly) (what : Option Overflow) :
    Balanced n (n.reckon what) :=
  ⟨hn.reckon what, sameDisks_reckon n what, rfl, fun _ => rfl, fun _ => rfl⟩

/-- **Balancing.** Every step of balancing keeps the schedule in order, with all its records. -/
theorem Rebalance.balanced (h : Rebalance n k) (hn : n.Orderly) : Balanced n k := by
  cases h with
  | promoted hp hc hact => exact ((leads_promote hn hp hc).reached hact).balanced
  | looked id slot => exact (harmless_fixMedia slot).balanced hn id
  | scored id score => exact (harmless_score score).balanced hn id
  | reckoned what => exact hn.balanced_reckon what

theorem Rebalances.balanced (h : Rebalances n k) (hn : n.Orderly) : Balanced n k := by
  induction h with
  | refl => exact .refl hn
  | tail _ hstep ih => exact ih.trans (hstep.balanced ih.orderly)

/-- The schedule has room for the full dump of a record in the place of its incremental. -/
def Night.RoomFor (n : Night) (id slot : Nat) : Prop :=
  sizeWith n (((n.plan id).mediaSize? slot).getD 0) (n.plan id).dumpMediaSize ≤ n.media.capacity

/-- A run of notes about records; the rest of the night is as it was, but for what has
overflowed. -/
structure Noted (n k : Night) : Prop where
  steps : RoomyRebalances n k
  rest : k = { n with plans := k.plans, totals := k.totals }
  totals : n.totals.Reckons k.totals
  plan : ∀ id, (n.plan id).Noted (k.plan id)

namespace Noted

theorem refl : Noted n n := ⟨.refl, rfl, .refl, fun _ => .refl⟩

theorem trans (h : Noted n m) (h' : Noted m k) : Noted n k :=
  ⟨h.steps.trans h'.steps,
    h'.rest.trans
      (congrArg (fun x : Night => { x with plans := k.plans, totals := k.totals }) h.rest),
    h.totals.trans h'.totals, fun id => (h.plan id).trans (h'.plan id)⟩

theorem balanced (h : Noted n k) (hn : n.Orderly) : Balanced n k :=
  h.steps.rebalances.balanced hn

theorem place (h : Noted n k) (id : Nat) : k.place id = n.place id := by
  rw [h.rest]
  rfl

theorem media (h : Noted n k) : k.media = n.media := by rw [h.rest]

theorem events (h : Noted n k) : k.events = n.events := by rw [h.rest]

theorem room_iff (h : Noted n k) : k.RoomFor id slot ↔ n.RoomFor id slot := by
  rw [Night.RoomFor, Night.RoomFor, sizeWith, sizeWith, (h.plan id).media,
    (h.plan id).dumpMediaSize, h.totals.size, h.media]

theorem room (h : Noted n k) (hr : n.RoomFor id slot) : k.RoomFor id slot := h.room_iff.mpr hr

theorem setPlan {f : DiskPlan → DiskPlan} (hf : Harmless f)
    (hstep : Rebalance n (n.setPlan id f)) : Noted n (n.setPlan id f) :=
  ⟨.single ⟨hstep, fun h => h⟩, rfl, .refl,
    fun j => plan_setPlan_cases (P := fun p => (n.plan j).Noted p) (hf.noted _) .refl⟩

theorem looked (id slot : Nat) : Noted n (n.setPlan id (·.fixMedia slot)) :=
  .setPlan (harmless_fixMedia slot) (.looked n id slot)

theorem scored (id : Nat) (score : Int) :
    Noted n (n.setPlan id fun p => { p with promote := score }) :=
  .setPlan (harmless_score score) (.scored n id score)

theorem reckoned (what : Option Overflow) : Noted n (n.reckon what) :=
  ⟨.single ⟨.reckoned n what, fun h => h⟩, rfl, ⟨what, rfl⟩, fun _ => .refl⟩

end Noted

/-! ## Candidates -/

def Promotable (found : Option (Nat × Nat)) (n : Night) : Prop :=
  ∀ id slot, found = some (id, slot) →
    n.place id = some .scheduled ∧ (n.plan id).Eligible slot ∧ n.RoomFor id slot

theorem promotable_none : Promotable none n :=
  fun _ _ e => by cases e

theorem Promotable.noted {found : Option (Nat × Nat)} (h : Promotable found n) (hk : Noted n k) :
    Promotable found k := by
  intro id slot e
  obtain ⟨hp, hc, hr⟩ := h id slot e
  exact ⟨(hk.place id).trans hp, hc.noted (hk.plan id), hk.room hr⟩

inductive Attempt (special : Bool) (n : Night) : Bool → Night → Prop
  | promoted {m k : Night} {id slot : Nat} (noted : Noted n m)
    (found : Promotable (some (id, slot)) m) (act : promote id slot special m = .ok () k) :
    Attempt special n true k
  | nothing {k : Night} (noted : Noted n k) : Attempt special n false k

theorem Attempt.noted {special again : Bool} (h : Attempt special m again k) (hm : Noted n m) :
    Attempt special n again k := by
  cases h with
  | promoted noted found act => exact .promoted (hm.trans noted) found act
  | nothing noted => exact .nothing (hm.trans noted)

/-- An attempt is a run of steps. -/
theorem Attempt.steps {special again : Bool} (h : Attempt special n again k) (hn : n.Orderly) :
    RoomyRebalances n k := by
  cases h with
  | @promoted m _ id slot noted found act =>
    obtain ⟨hp, hc, hr⟩ := found id slot rfl
    have hk := (leads_promote (noted.balanced hn).orderly hp hc.candidate).reached act
    refine noted.steps.tail ⟨.promoted hp hc.candidate act, fun _ => ?_⟩
    rw [hk.size]
    exact hr
  | nothing noted => exact noted.steps

namespace Planning

/-- A candidate is the full dump of a record that is none yet, and only such a record without the
size of a full dump has no candidate. -/
theorem leads_fullCandidate (id : Nat) :
    Leads (fullCandidate id) n (fun found k => Noted n k ∧
      (∀ slot full, found = some (slot, full) → (k.plan id).isFull = false ∧
        (k.plan id).positiveSlot? 0 = some slot ∧ (k.plan id).mediaSize? slot = some full) ∧
      (found = none → (k.plan id).isFull = false → (k.plan id).positiveSlot? 0 = none))
      fail := by
  simp only [fullCandidate, getPlan, leads_bind, leads_get, leads_pure]
  split
  · rename_i hfull
    exact ⟨.refl, by simp, fun _ hinc => absurd (hfull.symm.trans hinc) (by decide)⟩
  · rename_i hinc
    split
    · rename_i hnone
      exact ⟨.refl, by simp, fun _ _ => hnone⟩
    · rename_i slot hslot
      simp only [mediaSize?, Planning.setPlan, leads_bind, leads_modify, leads_get, leads_pure]
      have hk : Noted n (n.setPlan id (·.fixMedia slot)) := .looked id slot
      have hslot := ((hk.plan id).positiveSlot? 0).trans hslot
      refine ⟨hk, fun other full e => ?_, fun e => ?_⟩
      · obtain ⟨_, hfull, e⟩ := Option.map_eq_some_iff.mp e
        cases e
        exact ⟨(hk.plan id).isFull.trans (eq_false_of_ne_true hinc), hslot, hfull⟩
      · obtain ⟨full, hfull⟩ := Option.isSome_iff_exists.mp
          (DiskPlan.sized_of_positiveSlot? hslot).1
        rw [hfull] at e
        cases e

theorem scoreOf_room {full current : Nat} {score : Int}
    (h : scoreOf n id full current = some score) : sizeWith n full current ≤ n.media.capacity := by
  simp only [scoreOf] at h
  split at h
  · cases h
  · rename_i hroom
    exact Nat.le_of_not_lt hroom

/-- A record that is considered may become the best so far. -/
theorem leads_consider {best : Option (Nat × Nat)} (hn : n.Orderly)
    (hp : n.place id = some .scheduled) (hbest : Promotable best n) :
    Leads (consider best id) n (fun best k => Noted n k ∧ Promotable best k) fail := by
  have hsame : ∀ {k}, Noted n k → Noted n k ∧ Promotable best k := fun hk => ⟨hk, hbest.noted hk⟩
  simp only [consider, Planning.setPlan, leads_bind, leads_modify]
  apply (leads_fullCandidate id).imp
  rintro found m ⟨hm, hfound, -⟩
  have hm := (Noted.scored id (-1000)).trans hm
  have hplanned := (hm.balanced hn).orderly.planned ((hm.place id).trans hp)
  cases found with
  | none => exact hsame hm
  | some found =>
    obtain ⟨slot, full⟩ := found
    obtain ⟨hinc, hslot, hfull⟩ := hfound slot full rfl
    simp only [getPlan, leads_bind, leads_get, leads_pure]
    split
    · exact hsame hm
    · rename_i hnear
      have hc : (m.plan id).Eligible slot :=
        ⟨hinc, hslot, Int.not_lt.mp fun hfar => hnear (Or.inr hfar)⟩
      simp only [leads_bind, leads_iff_of_ok (dumpMediaSize_ok hplanned), leads_get, leads_reckon]
      replace hm := hm.trans (.reckoned (candidateOverflow? m id full (m.plan id).dumpMediaSize))
      split
      · exact hsame hm
      · rename_i score hscore
        have hk := hm.trans (.scored id score)
        have hroom : m.RoomFor id slot := by
          rw [Night.RoomFor, hfull]
          exact scoreOf_room hscore
        have hnew : Promotable (some (id, slot))
            (m.setPlan id fun p => { p with promote := score }) := by
          intro i s e
          cases e
          have hscored : Noted m (m.setPlan id fun p => { p with promote := score }) :=
            .scored id score
          exact ⟨(hm.place id).trans hp, hc.noted (hscored.plan id), hscored.room hroom⟩
        simp only [leads_bind, leads_modify]
        split
        · exact ⟨hk, hnew⟩
        · split
          · exact ⟨hk, hnew⟩
          · exact hsame hk

theorem leads_promoteFound {special : Bool} {found : Nat × Nat} (hn : n.Orderly)
    (hf : Promotable (some found) n) :
    Leads (do promote found.1 found.2 special; pure true) n (Attempt special n) fail := by
  obtain ⟨hp, hc, -⟩ := hf found.1 found.2 rfl
  rw [leads_bind]
  exact (leads_promote hn hp hc.candidate).run.imp fun _ k hk => .promoted .refl hf hk.1

/-- The best incremental is promoted, if there is one. -/
theorem leads_promoteBest (hn : n.Orderly) :
    Leads promoteBest n (Attempt false n) fail := by
  simp only [promoteBest, leads_bind, leads_get]
  refine (leads_foldlM_keeps (I := fun best k => Noted n k ∧ Promotable best k) ?_
    ⟨.refl, promotable_none⟩).imp ?_
  · rintro id hid best k ⟨hk, hbest⟩
    have hp := (hk.place id).trans (hn.sound.mem_scheduled.mp hid)
    apply (leads_consider (hk.balanced hn).orderly hp hbest).imp
    rintro best l ⟨hl, hbest⟩
    exact ⟨hk.trans hl, hbest⟩
  · rintro best k ⟨hk, hbest⟩
    cases best with
    | none => exact .nothing hk
    | some found =>
      exact (leads_promoteFound (hk.balanced hn).orderly hbest).imp fun _ l hl => hl.noted hk

theorem leads_promoteWhileWanted (rounds : Nat) (hn : n.Orderly) :
    Leads (promoteWhileWanted rounds) n (fun _ k => RoomyRebalances n k) fail := by
  induction rounds generalizing n with
  | zero => exact .refl
  | succ rounds ih =>
    simp only [promoteWhileWanted, leads_bind, leads_get]
    split
    · rw [leads_bind]
      refine (leads_promoteBest hn).imp fun again k hk => ?_
      have hk := hk.steps hn
      split
      · exact (ih (hk.rebalances.balanced hn).orderly).imp fun _ l hl => hk.trans hl
      · exact hk
    · exact .refl

end Planning

/-! ## Hills -/

/-- A scheduled disk may be dumped in full tonight instead of on `day`. -/
structure Night.MayLeave (n : Night) (day id : Nat) : Prop where
  takesFulls : (n.plan id).disk.takesFulls = true
  due : (n.plan id).nextFull = day
  eligible : ∃ slot, (n.plan id).Eligible slot ∧ n.RoomFor id slot

/-- The first of some scheduled disks that may leave a day, if any may. -/
def Night.FirstToLeave (n : Night) (day : Nat) (ids : List Nat) : Option Nat → Prop
  | none => ∀ id ∈ ids, ¬n.MayLeave day id
  | some id => ∃ front back, ids = front ++ id :: back ∧ n.MayLeave day id ∧
      ∀ j ∈ front, ¬n.MayLeave day j

theorem Night.FirstToLeave.mem (h : n.FirstToLeave day ids (some id)) :
    id ∈ ids ∧ n.MayLeave day id := by
  obtain ⟨front, back, rfl, hid, -⟩ := h
  exact ⟨List.mem_append_right front List.mem_cons_self, hid⟩

/-- One that may not leave is passed over. -/
theorem Night.FirstToLeave.cons {found : Option Nat} (hid : ¬n.MayLeave day id)
    (h : n.FirstToLeave day ids found) : n.FirstToLeave day (id :: ids) found := by
  cases found with
  | none => exact List.forall_mem_cons.mpr ⟨hid, h⟩
  | some j =>
    obtain ⟨front, back, rfl, hj, hfront⟩ := h
    exact ⟨id :: front, back, rfl, hj, List.forall_mem_cons.mpr ⟨hid, hfront⟩⟩

/-- Notes do not change who may leave. -/
theorem Noted.mayLeave_iff (hk : Noted n k) : k.MayLeave day id ↔ n.MayLeave day id := by
  have hid := hk.plan id
  constructor
  · rintro ⟨htakes, hdue, slot, he, hr⟩
    exact ⟨hid.disk ▸ htakes, hid.nextFull ▸ hdue, slot, he.noted hid.symm, hk.room_iff.mp hr⟩
  · rintro ⟨htakes, hdue, slot, he, hr⟩
    exact ⟨hid.disk.symm ▸ htakes, hid.nextFull.symm ▸ hdue, slot, he.noted hid,
      hk.room_iff.mpr hr⟩

theorem Noted.firstToLeave_iff (hk : Noted n k) {found : Option Nat} :
    k.FirstToLeave day ids found ↔ n.FirstToLeave day ids found := by
  cases found <;> simp only [FirstToLeave, hk.mayLeave_iff]

namespace Planning

/-- The first disk that may leave the day is found, and can be promoted. -/
theorem leads_findOnHill (day : Nat) {ids : List Nat} (hn : n.Orderly)
    (hids : ∀ id ∈ ids, n.place id = some .scheduled) :
    Leads (findOnHill day ids) n (fun found k =>
      Noted n k ∧ n.FirstToLeave day ids (found.map (·.1)) ∧ Promotable found k) fail := by
  induction ids generalizing n with
  | nil => exact ⟨.refl, fun _ hid => absurd hid List.not_mem_nil, promotable_none⟩
  | cons id ids ih =>
    have hrest : ∀ {m}, Noted n m → ¬n.MayLeave day id → Leads (findOnHill day ids) m
        (fun found k => Noted n k ∧ n.FirstToLeave day (id :: ids) (found.map (·.1)) ∧
          Promotable found k) fail := by
      intro m hm hstays
      refine (ih (hm.balanced hn).orderly fun j hj => ?_).imp ?_
      · exact (hm.place j).trans (hids j (List.mem_cons_of_mem _ hj))
      · rintro found k ⟨hk, hfirst, hfound⟩
        exact ⟨hm.trans hk, (hm.firstToLeave_iff.mp hfirst).cons hstays, hfound⟩
    have hp := hids id (List.mem_cons_self ..)
    simp only [findOnHill, getPlan, leads_bind, leads_get, leads_pure]
    split
    · rename_i hoff
      refine hrest .refl fun hleave => ?_
      obtain ⟨slot, he, -⟩ := hleave.eligible
      rcases hoff with hday | hfar | htakes
      · exact hday hleave.due
      · exact absurd he.near (Int.not_le.mpr hfar)
      · cases htakes.symm.trans hleave.takesFulls
    · rename_i hon
      obtain ⟨hdue, hnear, htakes⟩ :
          (n.plan id).nextFull = day ∧ (n.plan id).nextFull ≤ (n.plan id).disk.maxPromoteDay ∧
            (n.plan id).disk.takesFulls = true := by
        simpa only [not_or, not_not, Int.not_lt, Bool.not_eq_false] using hon
      rw [leads_bind]
      apply (leads_fullCandidate id).imp
      rintro found m ⟨hm, hfound, hnone⟩
      cases found with
      | none =>
        refine hrest hm fun hleave => ?_
        obtain ⟨slot, he, -⟩ := hleave.eligible
        have he := he.noted (hm.plan id)
        cases (hnone rfl he.incremental).symm.trans he.full
      | some found =>
        obtain ⟨slot, full⟩ := found
        obtain ⟨hinc, hslot, hfull⟩ := hfound slot full rfl
        have hplanned := (hm.balanced hn).orderly.planned ((hm.place id).trans hp)
        have hroom : m.RoomFor id slot ↔ sizeWith m full (m.plan id).dumpMediaSize ≤
            m.media.capacity := by
          rw [Night.RoomFor, hfull, Option.getD_some]
        simp only [leads_bind, leads_iff_of_ok (dumpMediaSize_ok hplanned), leads_get, leads_reckon]
        replace hm := hm.trans (.reckoned (sizesOverflow? [m.totals.size + full]))
        split
        · rename_i hfull
          refine hrest hm fun hleave => ?_
          obtain ⟨other, he, hr⟩ := hleave.eligible
          cases hslot.symm.trans (he.noted (hm.plan id)).full
          exact absurd (hroom.mp (hm.room hr)) (Nat.not_le.mpr hfull)
        · rename_i hfits
          have he : (m.plan id).Eligible slot :=
            ⟨hinc, hslot, (hm.plan id).nextFull ▸ (hm.plan id).disk ▸ hnear⟩
          have hr : m.RoomFor id slot := hroom.mpr (Nat.not_lt.mp hfits)
          refine ⟨hm, hm.firstToLeave_iff.mp ⟨[], ids, rfl, ⟨?_, ?_, slot, he, hr⟩, ?_⟩, ?_⟩
          · exact (hm.plan id).disk.symm ▸ htakes
          · exact (hm.plan id).nextFull.trans hdue
          · exact fun _ hj => absurd hj List.not_mem_nil
          · rintro _ _ ⟨⟩
            exact ⟨(hm.place id).trans hp, he, hr⟩

theorem leads_breakUp (hills : List Hill) (hn : n.Orderly) :
    Leads (breakUp hills) n (Attempt true n) fail := by
  induction hills generalizing n with
  | nil => exact .nothing .refl
  | cons hill hills ih =>
    simp only [breakUp, leads_bind, leads_get]
    apply (leads_findOnHill hill.day hn fun id hid => hn.sound.mem_scheduled.mp hid).imp
    rintro found k ⟨hk, -, hfound⟩
    have hkorder := (hk.balanced hn).orderly
    cases found with
    | none => exact (ih hkorder).imp fun _ l hl => hl.noted hk
    | some found => exact (leads_promoteFound hkorder hfound).imp fun _ l hl => hl.noted hk

/-- One record is promoted from a hill, if there is one. -/
theorem leads_breakHill (hn : n.Orderly) : Leads breakHill n (Attempt true n) fail := by
  simp only [breakHill, leads_bind, leads_get]
  split
  · exact .nothing .refl
  · rw [leads_bind, leads_reckon]
    exact (leads_breakUp _ (hn.reckon _)).imp fun _ _ hk => hk.noted (.reckoned _)

/-- Balancing keeps the room that the schedule has on the media. -/
theorem leads_balance_roomy (hn : n.Orderly) :
    Leads balance n (fun _ k => RoomyRebalances n k) fail := by
  simp only [balance, leads_bind, leads_get, leads_pure]
  refine (leads_promoteWhileWanted _ hn).imp fun _ k hk => ?_
  have hkorder := (hk.rebalances.balanced hn).orderly
  exact (leads_breakHill hkorder).imp fun _ l hl => hk.trans (hl.steps hkorder)

/-- The balance is a run of promotions and notes that no fault ends. -/
theorem leads_balance (hn : n.Orderly) : Leads balance n (fun _ k => Rebalances n k) fail :=
  (leads_balance_roomy hn).imp fun _ _ hk => hk.rebalances

end Planning

end NightlyBackup
