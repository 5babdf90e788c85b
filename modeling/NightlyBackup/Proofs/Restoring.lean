import NightlyBackup.Proofs.Incrementals

/-!
Incrementals that can be restored. The watermark of a level is the date of the newest dump that
is recorded below it, and an incremental is scheduled only on top of the last level of its disk;
so what the dump of tonight leaves out has been dumped before. A date that the calendar does not
reach is written as the start of 1970, which loses nothing either.
-/

namespace NightlyBackup

open Night Planning

variable {disks : List Disk} {n m g k : Night} {id level : Nat} {act : Planning Unit}

/-! ## Levels as the store has them -/

namespace History

variable {h : History} {l : Nat} {r : LevelRecord}

def Ascending (h : History) : Prop := h.levels.Pairwise fun a b => a.1 < b.1

theorem level?_of_mem (ha : h.Ascending) (hm : (l, r) ∈ h.levels) : h.level? l = some r := by
  have hlookup : ∀ levels : List (Nat × LevelRecord), levels.Pairwise (fun a b => a.1 < b.1) →
      (l, r) ∈ levels → levels.lookup l = some r := by
    intro levels
    induction levels with
    | nil => intro _ hm; cases hm
    | cons first levels ih =>
      intro hp hm
      obtain ⟨hfirst, hp⟩ := List.pairwise_cons.mp hp
      rcases List.mem_cons.mp hm with rfl | hm
      · exact List.lookup_cons_self
      · have hne : (l == first.1) = false := by
          have hlt := hfirst _ hm
          simp only [beq_eq_false_iff_ne, ne_eq]
          omega
        rw [List.lookup_cons, hne]
        exact ih hp hm
  exact hlookup h.levels ha hm

theorem mem_of_level? (hl : h.level? l = some r) : (l, r) ∈ h.levels := by
  obtain ⟨before, after, hsplit, -⟩ := List.lookup_eq_some_iff.mp hl
  rw [hsplit]
  simp

end History

theorem mem_insertLevel {level : Nat} {r : LevelRecord} {levels : List (Nat × LevelRecord)}
    {x : Nat × LevelRecord} (hx : x ∈ insertLevel level r levels) :
    x.1 = level ∨ x ∈ levels := by
  induction levels with
  | nil => exact Or.inl (by rw [List.mem_singleton.mp hx])
  | cons first rest ih =>
    obtain ⟨l, s⟩ := first
    unfold insertLevel at hx
    split at hx
    · rcases List.mem_cons.mp hx with rfl | hx
      · exact Or.inl rfl
      · exact Or.inr hx
    · split at hx
      · rcases List.mem_cons.mp hx with rfl | hx
        · exact Or.inl rfl
        · exact Or.inr (List.mem_cons_of_mem _ hx)
      · rcases List.mem_cons.mp hx with rfl | hx
        · exact Or.inr (List.mem_cons_self ..)
        · exact (ih hx).imp_right (List.mem_cons_of_mem _)

theorem pairwise_insertLevel {level : Nat} {r : LevelRecord}
    {levels : List (Nat × LevelRecord)} (hp : levels.Pairwise fun a b => a.1 < b.1) :
    (insertLevel level r levels).Pairwise fun a b => a.1 < b.1 := by
  induction levels with
  | nil => exact List.pairwise_singleton ..
  | cons first rest ih =>
    obtain ⟨l, s⟩ := first
    obtain ⟨hfirst, hrest⟩ := List.pairwise_cons.mp hp
    unfold insertLevel
    split
    · rename_i hlt
      refine List.pairwise_cons.mpr ⟨fun x hx => ?_, hp⟩
      rcases List.mem_cons.mp hx with rfl | hx
      · exact hlt
      · exact Nat.lt_trans hlt (hfirst x hx)
    · split
      · rename_i heq
        exact List.pairwise_cons.mpr ⟨fun x hx => heq ▸ hfirst x hx, hrest⟩
      · refine List.pairwise_cons.mpr ⟨fun x hx => ?_, ih hrest⟩
        rcases mem_insertLevel hx with hx | hx
        · show l < x.1
          omega
        · exact hfirst x hx

/-- A history that is read back has its levels in order, however they were stored. -/
theorem ascending_of_history {store : Store} {host disk : String} {history : Option History}
    (h : store.history? host disk = .ok history) : (history.getD {}).Ascending := by
  have hread : ∀ (levels : List StoredLevel) (sofar : List (Nat × LevelRecord)),
      sofar.Pairwise (fun a b => a.1 < b.1) →
      (levels.foldl (fun levels l => insertLevel (wrapWord 32 l.level) l.toRecord levels)
        sofar).Pairwise fun a b => a.1 < b.1 := by
    intro levels
    induction levels with
    | nil => exact fun _ hp => hp
    | cons level levels ih => exact fun _ hp => ih _ (pairwise_insertLevel hp)
  unfold Store.history? at h
  split at h
  · cases h
    exact List.Pairwise.nil
  · rename_i r _
    unfold StoredHistory.read at h
    split at h
    · cases h
    · cases h
    · cases h
      exact hread _ [] .nil

/-! ## Dates and watermarks -/

namespace History

variable {h : History}

/-- What a dump at `level` has to reach back to: the newest date that is recorded below the
level, or the start of 1970 if nothing later is recorded there. -/
inductive ReachesBackTo (h : History) (level : Nat) : Int → Prop
  | newest {l : Nat} {date : Int} (below : l < level) (recorded : h.levelDate? l = some date)
    (epoch : 0 ≤ date) (last : ∀ l < level, ∀ t, h.levelDate? l = some t → t ≤ date) :
    ReachesBackTo h level date
  | epoch (last : ∀ l < level, ∀ t, h.levelDate? l = some t → t < 0) : ReachesBackTo h level 0

theorem reachesBackTo_newestBelow (ha : h.Ascending) (level : Nat) :
    h.ReachesBackTo level (h.newestBelow level) := by
  let dates := (h.levels.filter (·.1 < level)).filterMap (·.2.date)
  have hdates : ∀ t, t ∈ dates ↔ ∃ l < level, h.levelDate? l = some t := by
    intro t
    constructor
    · intro ht
      obtain ⟨⟨l, r⟩, hm, hdate⟩ := List.mem_filterMap.mp ht
      obtain ⟨hm, hlt⟩ := List.mem_filter.mp hm
      refine ⟨l, of_decide_eq_true hlt, ?_⟩
      rw [levelDate?, level?_of_mem ha hm]
      exact hdate
    · rintro ⟨l, hlt, hdate⟩
      obtain ⟨r, hr, hdate⟩ := Option.bind_eq_some_iff.mp hdate
      exact List.mem_filterMap.mpr
        ⟨(l, r), List.mem_filter.mpr ⟨mem_of_level? hr, decide_eq_true hlt⟩, hdate⟩
  have hmax : ((0 : Int) :: dates).max? = some (h.newestBelow level) := List.max?_cons'
  obtain ⟨hattained, hlast⟩ := List.max?_eq_some_iff.mp hmax
  by_cases hrecorded : h.newestBelow level ∈ dates
  · obtain ⟨l, hlt, hdate⟩ := (hdates _).mp hrecorded
    refine .newest hlt hdate (hlast 0 (List.mem_cons_self ..)) fun l hl t ht => ?_
    exact hlast t (List.mem_cons_of_mem _ ((hdates t).mpr ⟨l, hl, ht⟩))
  · have hzero : h.newestBelow level = 0 := (List.mem_cons.mp hattained).resolve_right hrecorded
    rw [hzero] at hrecorded hlast ⊢
    refine .epoch fun l hl t ht => ?_
    have hmem := (hdates t).mpr ⟨l, hl, ht⟩
    have hne : t ≠ 0 := fun e => hrecorded (e ▸ hmem)
    have hle := hlast t (List.mem_cons_of_mem _ hmem)
    omega

end History

namespace Calendar

def Covers (moment : Int) : Prop :=
  firstYear ≤ (fieldsOf moment).1.year ∧ (fieldsOf moment).1.year ≤ lastYear

instance (moment : Int) : Decidable (Covers moment) := inferInstanceAs (Decidable (_ ∧ _))

def dateText (moment : Int) : String :=
  let (date, h, m, s) := fieldsOf moment
  Text.joinWith ":"
    [yearText date.year, toString date.month, toString date.day, toString h, toString m,
      toString s]

theorem watermark_eq (moment : Int) :
    watermark moment = dateText (if Covers moment then moment else 0) := by
  by_cases hc : Covers moment
  · rw [if_pos hc]
    unfold Covers at hc
    simp only [watermark, dateText, if_pos hc]
  · rw [if_neg hc]
    unfold Covers at hc
    simp only [watermark, dateText, if_neg hc]

end Calendar

/-! ## Dumps that can be restored -/

/-- A level that was asked for and has a size. A dump at it is a full one or has the last level
to stand on, and reaches back to the newest date recorded below it, as far as the calendar does. -/
structure LevelEstimate.Restorable (e : LevelEstimate) (h : History) (last : Option Nat)
    (asked : List Nat) : Prop where
  asked : e.level ∈ asked
  sized : ∃ kb, e.size = .sized kb
  base : e.level = 0 ∨ ∃ l, last = some l ∧ 1 ≤ e.level ∧ e.level ≤ l + 1
  since : ∃ date, h.ReachesBackTo e.level date ∧
    e.watermark = Calendar.dateText (if Calendar.Covers date then date else 0)

/-- An incremental that goes with its question has the last level to stand on, unless level 1 is
asked for alone. -/
theorem Question.Asked.base {q : Question} (ha : q.Asked)
    (hlast : ¬(q.levels = [1] ∧ q.lastLevel = none)) (hm : level ∈ q.levels) :
    level = 0 ∨ ∃ l, q.lastLevel = some l ∧ 1 ≤ level ∧ level ≤ l + 1 := by
  cases ha with
  | level1 levels =>
    obtain rfl : level = 1 := by simpa [levels] using hm
    cases hl : q.lastLevel with
    | none => exact absurd ⟨levels, hl⟩ hlast
    | some l => exact Or.inr ⟨l, rfl, by omega⟩
  | new last levels => exact Or.inl (levels level hm)
  | after l last levels noFull =>
    have hlevel := levels level hm
    by_cases h0 : level = 0
    · exact Or.inl h0
    · exact Or.inr ⟨l, last, by omega⟩

/-- The last level and the levels that are asked for stand when the terms do. -/
theorem Steps.question (h : Steps .onTerms n m) (id : Nat) :
    (m.plan id).lastLevel = (n.plan id).lastLevel ∧
      (m.plan id).question.levels = (n.plan id).question.levels := by
  have hsame : (m.plan id).terms = (n.plan id).terms := h.plan (fun _ hf => hf) id
  refine ⟨congrArg Terms.lastLevel hsame, ?_⟩
  have hlevels := congrArg (fun t : Terms => t.levels.map (·.1)) hsame
  simpa [DiskPlan.terms, DiskPlan.question, Function.comp_def] using hlevels

/-- Every level of a scheduled disk that has a size can be restored. -/
theorem Phases.restorable {settings : Settings} {rotation : Rotation} {today : Int}
    {store : Store} (h : Phases store act n m g k)
    (hbegin : Night.begin settings disks rotation today = .ok n) (hid : id ∈ k.scheduled) :
    ∃ d history, (disks.filter (·.todo))[id]? = some d ∧
      store.history? d.host d.name = .ok history ∧
      ∀ slot, (k.plan id).Sized slot → ∃ e, (k.plan id).levels[slot]? = some e ∧
        e.Restorable (history.getD {}) (k.plan id).lastLevel (m.plan id).question.levels := by
  obtain ⟨d, history, hd, hhistory, hlaid⟩ := h.laidDown hbegin hid
  obtain ⟨q, hasked, -, hlast, hlevels⟩ := hlaid.asked
  have hlevels : q.levels = (k.plan id).question.levels := by
    rw [hlevels]
    simp [DiskPlan.terms, DiskPlan.question, Function.comp_def]
  have hlast : q.lastLevel = (k.plan id).lastLevel := hlast
  -- no dump would have been chosen if level 1 had nothing to stand on
  have halone : ¬(q.levels = [1] ∧ q.lastLevel = none) := fun hone => by
    obtain ⟨hlastg, hlevelsg⟩ := h.terms.2.question id
    have hnone : (g.plan id).choose.dump = none := DiskPlan.choose_eq_none
      ⟨hlevelsg.symm.trans (hlevels.symm.trans hone.1),
        Or.inl (hlastg.symm.trans (hlast.symm.trans hone.2))⟩
    have hchosen := h.chosen hid
    rw [hnone] at hchosen
    cases hchosen
  refine ⟨d, history, hd, hhistory, fun slot hsized => ?_⟩
  obtain ⟨e, kb, he, hkb⟩ := hsized.exists_estimate
  have hlevel : e.level ∈ (k.plan id).question.levels :=
    List.mem_map_of_mem (List.mem_of_getElem? he)
  refine ⟨e, he, ?_, ⟨kb, hkb⟩, ?_, ?_⟩
  · rw [← ((Steps.trans h.terms.1 h.terms.2).question id).2]
    exact hlevel
  · rw [← hlast]
    exact hasked.base halone (hlevels ▸ hlevel)
  · refine ⟨_, History.reachesBackTo_newestBelow (ascending_of_history hhistory) e.level, ?_⟩
    rw [← Calendar.watermark_eq]
    exact hlaid.watermark (DiskPlan.mem_terms he)

/-- **No orphan incremental.** However sizes are gathered, the dump that is scheduled for a disk,
and the one it can fall back to, are at levels that were asked for and have sizes. An incremental
has the last level of the disk to stand on, a fallback is always an incremental, and what a dump
reaches back to is the newest date that is recorded at any lower level. -/
theorem scheduled_dumps_restorable {settings : Settings} {rotation : Rotation} {today : Int}
    {store : Store} (hbegin : Night.begin settings disks rotation today = .ok n)
    (hgathering : Gathering act) (hplan : planWith store act n = .ok () k) :
    ∃ m, prepareAll store n = .ok () m ∧ ∀ id ∈ k.scheduled, ∃ d history,
      (disks.filter (·.todo))[id]? = some d ∧ store.history? d.host d.name = .ok history ∧
      (∃ slot e, (k.plan id).dump = some slot ∧ (k.plan id).levels[slot]? = some e ∧
        e.Restorable (history.getD {}) (k.plan id).lastLevel (m.plan id).question.levels) ∧
      ∀ slot, (k.plan id).degraded = some slot → ∃ e, (k.plan id).levels[slot]? = some e ∧
        e.Restorable (history.getD {}) (k.plan id).lastLevel (m.plan id).question.levels ∧
        e.level ≠ 0 := by
  obtain ⟨m, g, hphases⟩ := exists_phases hbegin hgathering hplan
  refine ⟨m, hphases.prepares, fun id hid => ?_⟩
  obtain ⟨d, history, hd, hhistory, hall⟩ := hphases.restorable hbegin hid
  have hplanned := hphases.orderly.planned (hphases.sorted.sound.mem_scheduled.mp hid)
  refine ⟨d, history, hd, hhistory, ?_, fun slot hdegraded => ?_⟩
  · obtain ⟨slot, hdump, hsized⟩ := hplanned.sized
    obtain ⟨e, he, hrestorable⟩ := hall slot hsized
    exact ⟨slot, e, hdump, he, hrestorable⟩
  · obtain ⟨hsized, level, hlevel, hpos⟩ := hplanned.fallback hdegraded
    obtain ⟨e, he, hrestorable⟩ := hall slot hsized
    rw [DiskPlan.levelAt?, he] at hlevel
    obtain rfl : e.level = level := Option.some.inj hlevel
    exact ⟨e, he, hrestorable, Nat.ne_of_gt hpos⟩

/-- The incremental that is made between full dumps from elsewhere stands on the full dump. -/
theorem incremental_between_fulls_restorable : ∃ n k m,
    Night.begin {} [fullElsewhere] default 0 = .ok n ∧
    planWith (lastFull 0 [freshFull]) (gatherTurns [.ask 0]) n = .ok () k ∧ 0 ∈ k.scheduled ∧
    prepareAll (lastFull 0 [freshFull]) n = .ok () m ∧ ∃ d history,
      ([fullElsewhere].filter (·.todo))[0]? = some d ∧
      (lastFull 0 [freshFull]).history? d.host d.name = .ok history ∧
      (∃ slot e, (k.plan 0).dump = some slot ∧ (k.plan 0).levels[slot]? = some e ∧
        e.Restorable (history.getD {}) (k.plan 0).lastLevel (m.plan 0).question.levels) ∧
      ∀ slot, (k.plan 0).degraded = some slot → ∃ e, (k.plan 0).levels[slot]? = some e ∧
        e.Restorable (history.getD {}) (k.plan 0).lastLevel (m.plan 0).question.levels ∧
        e.level ≠ 0 := by
  obtain ⟨n, hbegin, hdrawn⟩ : ∃ n, Night.begin {} [fullElsewhere] default 0 = .ok n ∧
      DrawsAlone (lastFull 0 [freshFull]) (gatherTurns [.ask 0]) 1 n :=
    ⟨_, rfl, by decide +kernel⟩
  obtain ⟨k, hplan, hmem, -⟩ := exists_planned_alone hbegin (.turns [.ask 0]) hdrawn
  obtain ⟨m, hprepare, hall⟩ := scheduled_dumps_restorable hbegin (.turns [.ask 0]) hplan
  exact ⟨n, k, m, hbegin, hplan, hmem, hprepare, hall 0 hmem⟩

def farFull : StoredLevel := { freshFull with date := some 10000000000000 }

/-- An incremental on top of a full dump that is dated after the end of the calendar reaches back
to the start of 1970. -/
theorem incremental_of_far_full_reaches_back : ∃ n k slot e h,
    Night.begin {} [fullElsewhere] default 0 = .ok n ∧
    planWith (lastFull 0 [farFull]) (gatherTurns [.ask 0]) n = .ok () k ∧ 0 ∈ k.scheduled ∧
    (k.plan 0).dump = some slot ∧ (k.plan 0).levels[slot]? = some e ∧ e.level = 1 ∧
    (lastFull 0 [farFull]).history? fullElsewhere.host fullElsewhere.name = .ok (some h) ∧
    h.ReachesBackTo 1 10000000000000 ∧
    Calendar.dateText 10000000000000 = "+318857:5:20:17:46:40" ∧
    e.watermark = "1970:1:1:0:0:0" := by
  obtain ⟨n, hbegin, hdrawn⟩ : ∃ n, Night.begin {} [fullElsewhere] default 0 = .ok n ∧
      DrawsAlone (lastFull 0 [farFull]) (gatherTurns [.ask 0]) 1 n :=
    ⟨_, rfl, by decide +kernel⟩
  obtain ⟨k, hplan, hmem, hlevel⟩ := exists_planned_alone hbegin (.turns [.ask 0]) hdrawn
  obtain ⟨m, g, hphases⟩ := exists_phases hbegin (.turns [.ask 0]) hplan
  obtain ⟨d, history, hd, hhistory, hlaid⟩ := hphases.laidDown hbegin hmem
  obtain rfl : fullElsewhere = d := Option.some.inj hd
  obtain ⟨slot, hdump, hslot⟩ := Option.bind_eq_some_iff.mp hlevel
  obtain ⟨e, he, hone⟩ := Option.map_eq_some_iff.mp hslot
  obtain ⟨h, hread, hdate, hmark⟩ : ∃ h,
      (lastFull 0 [farFull]).history? fullElsewhere.host fullElsewhere.name = .ok (some h) ∧
        h.newestBelow 1 = 10000000000000 ∧ h.watermark 1 = "1970:1:1:0:0:0" :=
    ⟨_, rfl, by decide +kernel, by decide +kernel⟩
  have hsame : history = some h := Except.ok.inj (hhistory.symm.trans hread)
  have hfar := History.reachesBackTo_newestBelow (ascending_of_history hread) 1
  rw [Option.getD_some, hdate] at hfar
  refine ⟨n, k, slot, e, h, hbegin, hplan, hmem, hdump, he, hone, hread, hfar,
    by decide +kernel, ?_⟩
  rw [hlaid.watermark (DiskPlan.mem_terms he), hone, hsame]
  exact hmark

end NightlyBackup
