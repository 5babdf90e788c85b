import NightlyBackup.Proofs.Phases

/-!
Incrementals of disks that take none. What is scheduled goes by the terms that preparation laid
down, so that an incremental is scheduled only where one was asked for. None is asked for where
the strategy has no incrementals; where they are skipped, one is asked for all the same if the
operator wants level 1, because the directive is carried out before the skipping is looked at.
-/

namespace NightlyBackup

open Night Planning

variable {disks : List Disk} {n m g k : Night} {id slot level : Nat} {p : DiskPlan} {d : Disk}
  {h : History} {t : Terms} {act : Planning Unit}

/-! ## Levels that are asked for -/

namespace Outlook

variable {o : Outlook} {w : Nat}

/-- An incremental is wanted only of a disk that takes incrementals, or because level 1 was
directed. -/
theorem incremental_of_chooseLevels (hw : o.wanted = []) {runs : Nat}
    (hm : w ∈ (o.chooseLevels runs).wanted) (hpos : 0 < w) :
    o.disk.strategy ≠ .noIncremental ∧
      (o.disk.skipIncr = true → w = 1 ∧ o.directives.forceLevel1 = true) := by
  revert hm
  refine chooseLevels_cases o runs (fun hforced htakes _ hm => ?_) (fun hfull hm => ?_)
    fun _ hskip htakes _ => ?_
  · have hlevel1 : w ∈ o.wanted ++ [1] := hm
    exact ⟨htakes, fun _ => ⟨by simpa [hw] using hlevel1, hforced⟩⟩
  · have h0 := (hfull.adds.wanted w hm).resolve_left (by simp [hw])
    exact absurd h0 (Nat.ne_of_gt hpos)
  · exact ⟨htakes, fun hskips => absurd (hskips.symm.trans hskip) (by decide)⟩

end Outlook

/-- The levels that are laid down are those of a question that is asked. -/
theorem LaidDown.asked (hl : LaidDown d h t) :
    ∃ q : Question, q.Asked ∧ q.disk = d ∧ q.lastLevel = t.lastLevel ∧
      q.levels = t.levels.map (·.1) := by
  obtain ⟨s, r, today, o, levels, hj, rfl⟩ := hl
  have hasked := Outlook.asked_of_judge (Outlook.fits_ofHistory ..) hj
    (p := DiskPlan.ofDisk d 0) rfl 0
  refine ⟨_, hasked, rfl, rfl, ?_⟩
  simp [DiskPlan.question, takeOutlook, Function.comp_def]

/-- Every level that is laid down has the watermark of the history. -/
theorem LaidDown.watermark (hl : LaidDown d h t) {mark : String} (hm : (level, mark) ∈ t.levels) :
    mark = h.watermark level := by
  obtain ⟨s, r, today, o, levels, -, rfl⟩ := hl
  obtain ⟨l, -, e⟩ := List.mem_map.mp hm
  obtain ⟨rfl, rfl⟩ := Prod.mk.inj e
  rfl

theorem LaidDown.incremental (hl : LaidDown d h t) {mark : String} (hm : (level, mark) ∈ t.levels)
    (hpos : 0 < level) : d.strategy ≠ .noIncremental ∧
      (d.skipIncr = true → level = 1 ∧ h.directives.forceLevel1 = true) := by
  obtain ⟨s, r, today, o, levels, hj, rfl⟩ := hl
  obtain ⟨l, hlevel, e⟩ := List.mem_map.mp hm
  obtain ⟨rfl, -⟩ := Prod.mk.inj e
  have hlater := (Outlook.later_judge (Outlook.ofHistory d h r s.reserve today) s r).level1
  obtain ⟨trusted, runs, ht, rfl, rfl⟩ := Outlook.chosen_of_judge (Outlook.fits_ofHistory ..) hj
  rw [hj] at hlater
  have htakes := Outlook.incremental_of_chooseLevels ht.wanted
    (Outlook.mem_of_mem_dropRepeats (List.mem_of_mem_take hlevel)) hpos
  rw [ht.disk, ← (Outlook.later_chooseLevels trusted runs).level1, hlater] at htakes
  exact htakes

/-! ## What a scheduled dump goes by -/

/-- The terms of a level that a plan has. -/
theorem DiskPlan.mem_terms {e : LevelEstimate} (he : p.levels[slot]? = some e) :
    (e.level, e.watermark) ∈ p.terms.levels :=
  List.mem_map_of_mem (List.mem_of_getElem? he)

theorem DiskPlan.Sized.exists_estimate (hs : p.Sized slot) :
    ∃ e kb, p.levels[slot]? = some e ∧ e.size = .sized kb := by
  unfold DiskPlan.Sized DiskPlan.mediaSize? at hs
  cases he : p.levels[slot]? with
  | none => simp [he] at hs
  | some e =>
    rw [he] at hs
    cases hsize : e.size with
    | sized kb => exact ⟨e, kb, rfl, hsize⟩
    | pending => simp [DiskPlan.mediaOf?, SizeEstimate.kb?, hsize] at hs
    | removed => simp [DiskPlan.mediaOf?, SizeEstimate.kb?, hsize] at hs
    | timedOut => simp [DiskPlan.mediaOf?, SizeEstimate.kb?, hsize] at hs

/-- What is scheduled for a disk goes by the terms that were laid down for it. -/
theorem Phases.laidDown {settings : Settings} {rotation : Rotation} {today : Int} {store : Store}
    (h : Phases store act n m g k)
    (hbegin : Night.begin settings disks rotation today = .ok n) (hid : id ∈ k.scheduled) :
    ∃ d history, (disks.filter (·.todo))[id]? = some d ∧
      store.history? d.host d.name = .ok history ∧
      LaidDown d (history.getD {}) (k.plan id).terms := by
  obtain ⟨hlt, hd, hhost⟩ := h.disk hbegin hid
  have hterms : (k.plan id).terms = (m.plan id).terms :=
    (Steps.trans h.terms.1 h.terms.2).plan (fun _ hf => hf) id
  obtain ⟨history, hhistory, hfrom⟩ :=
    (leads_prepareAll_terms (fresh_of_begin hbegin) store).ok h.prepares id hlt
  rw [hhost] at hhistory
  refine ⟨_, history, hd, hhistory, ?_⟩
  rw [hterms]
  refine hfrom.resolve_left fun hnone => ?_
  -- a disk that is not asked about has no level that could be dumped
  have hplanned := h.orderly.planned (h.sorted.sound.mem_scheduled.mp hid)
  obtain ⟨slot, -, hsized⟩ := hplanned.sized
  obtain ⟨e, kb, he, -⟩ := hsized.exists_estimate
  have hmem := DiskPlan.mem_terms he
  rw [hterms, DiskPlan.terms, hnone] at hmem
  cases hmem

/-- **No unwanted incremental.** However sizes are gathered, an incremental is on the schedule of
a planned night only for a disk whose strategy has incrementals, and whose incrementals are not
skipped unless the operator has directed level 1. -/
theorem incrementals_allowed {settings : Settings} {rotation : Rotation} {today : Int}
    {store : Store} (hbegin : Night.begin settings disks rotation today = .ok n)
    (hgathering : Gathering act) (hplan : planWith store act n = .ok () k) :
    ∀ id ∈ k.scheduled, ∀ level, (k.plan id).dumpLevel? = some level → 0 < level →
      ∃ d history, (disks.filter (·.todo))[id]? = some d ∧
        store.history? d.host d.name = .ok history ∧ d.strategy ≠ .noIncremental ∧
        (d.skipIncr = true → level = 1 ∧ (history.getD {}).directives.forceLevel1 = true) := by
  intro id hid level hlevel hpos
  obtain ⟨m, g, hphases⟩ := exists_phases hbegin hgathering hplan
  obtain ⟨d, history, hd, hhistory, hlaid⟩ := hphases.laidDown hbegin hid
  obtain ⟨slot, -, hslot⟩ := Option.bind_eq_some_iff.mp hlevel
  obtain ⟨e, he, rfl⟩ := Option.map_eq_some_iff.mp hslot
  exact ⟨d, history, hd, hhistory, hlaid.incremental (DiskPlan.mem_terms he) hpos⟩

def lastFull (command : Int) (levels : List StoredLevel) : Store :=
  { disks := [{ host := "alpha", disk := "/home", command := command, lastLevel := some 0,
                levels := levels }] }

def freshFull : StoredLevel :=
  { level := 0, size := 1000, mediaSize := 1000, seconds := 60, date := some 0, label := none }

def fullElsewhere : Disk := { expectedDisk with skipFull := true }

/-- The incremental of a disk whose full dumps are made elsewhere is scheduled. -/
theorem incremental_between_fulls_allowed : ∃ n k,
    Night.begin {} [fullElsewhere] default 0 = .ok n ∧
    planWith (lastFull 0 [freshFull]) (gatherTurns [.ask 0]) n = .ok () k ∧ 0 ∈ k.scheduled ∧
    (k.plan 0).dumpLevel? = some 1 ∧
    ∃ d history, ([fullElsewhere].filter (·.todo))[0]? = some d ∧
      (lastFull 0 [freshFull]).history? d.host d.name = .ok history ∧
      d.strategy ≠ .noIncremental ∧
      (d.skipIncr = true → 1 = 1 ∧ (history.getD {}).directives.forceLevel1 = true) := by
  obtain ⟨n, hbegin, hdrawn⟩ : ∃ n, Night.begin {} [fullElsewhere] default 0 = .ok n ∧
      DrawsAlone (lastFull 0 [freshFull]) (gatherTurns [.ask 0]) 1 n :=
    ⟨_, rfl, by decide +kernel⟩
  obtain ⟨k, hplan, hmem, hlevel⟩ := exists_planned_alone hbegin (.turns [.ask 0]) hdrawn
  exact ⟨n, k, hbegin, hplan, hmem, hlevel,
    incrementals_allowed hbegin (.turns [.ask 0]) hplan 0 hmem 1 hlevel Nat.one_pos⟩

def incrSkipped : Disk := { expectedDisk with skipIncr := true }

/-- An incremental is scheduled although the incrementals of the disk are skipped: level 1 is
directed, and a full dump is due. -/
theorem skipped_incremental_scheduled : ∃ n k,
    Night.begin {} [incrSkipped] default 0 = .ok n ∧
    planWith (lastFull 8 []) (gatherTurns [.ask 0]) n = .ok () k ∧ 0 ∈ k.scheduled ∧
    (k.plan 0).dumpLevel? = some 1 ∧
    ([incrSkipped].filter (·.todo))[0]? = some incrSkipped ∧ incrSkipped.skipIncr = true := by
  obtain ⟨n, hbegin, hdrawn⟩ : ∃ n, Night.begin {} [incrSkipped] default 0 = .ok n ∧
      DrawsAlone (lastFull 8 []) (gatherTurns [.ask 0]) 1 n :=
    ⟨_, rfl, by decide +kernel⟩
  obtain ⟨k, hplan, hmem, hlevel⟩ := exists_planned_alone hbegin (.turns [.ask 0]) hdrawn
  exact ⟨n, k, hbegin, hplan, hmem, hlevel, rfl, rfl⟩

end NightlyBackup
