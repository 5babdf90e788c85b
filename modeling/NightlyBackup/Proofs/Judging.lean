import NightlyBackup.Proofs.Preparing
import NightlyBackup.Proofs.Steps

/-!
What preparation lays down about a disk. A verdict changes neither the history that it goes by
nor the directive for level 1; so the levels that are asked for carry the watermarks of the
history, and they are incrementals only where the disk takes them or level 1 was directed.
-/

namespace NightlyBackup

variable {n m : Night} {id : Nat} {d : Disk} {h : History}

namespace Outlook

variable {o o' o'' : Outlook} {e : Event}

structure Later (o o' : Outlook) : Prop where
  disk : o'.disk = o.disk
  history : o'.history = o.history
  level1 : o'.directives.forceLevel1 = o.directives.forceLevel1
  notices : ∀ e ∈ o'.notices, e ∈ o.notices ∨ e.ofPlanning = true

theorem Later.refl (o : Outlook) : Later o o := ⟨rfl, rfl, rfl, fun _ => Or.inl⟩

theorem Later.trans (h : Later o o') (h' : Later o' o'') : Later o o'' :=
  ⟨h'.disk.trans h.disk, h'.history.trans h.history, h'.level1.trans h.level1,
    fun e he => (h'.notices e he).elim (h.notices e) Or.inr⟩

/-- Why there is no fallback does not matter. -/
theorem Later.withReason (h : Later o o') (reason : Option String) :
    Later o { o' with degradedReason := reason } :=
  ⟨h.disk, h.history, h.level1, h.notices⟩

theorem Later.want (h : Later o o') (level : Nat) : Later o (o'.want level) :=
  ⟨h.disk, h.history, h.level1, h.notices⟩

theorem Later.say (h : Later o o') (he : e.ofPlanning = true) : Later o (o'.say e) := by
  refine ⟨h.disk, h.history, h.level1, fun x hx => ?_⟩
  rcases List.mem_append.mp hx with hx | hx
  · exact h.notices x hx
  · exact Or.inr (List.mem_singleton.mp hx ▸ he)

theorem Later.tell (h : Later o o') (message : String) : Later o (o'.tell message) := h.say rfl

theorem Later.revision (hr : Revision o' o'') (h : Later o o') : Later o o'' := by
  cases hr with
  | told planning => exact h.say planning
  | _ => exact ⟨h.disk, h.history, h.level1, h.notices⟩

theorem later_reckonAbove (o : Outlook) (last runs : Nat) :
    Later o (o.reckonAbove last runs) := by
  obtain ⟨what, h⟩ := o.reckonAbove_eq last runs
  rw [h]
  exact (Later.refl o).revision (.reckoned o what)

theorem Later.revised (h : Later o o') (hr : Revised o' o'') : Later o o'' := hr.keeps .revision h

theorem Announced.later {told : Outlook} (h : Outlook.Announced o told) : Later o told := by
  cases h with
  | silent => exact .refl o
  | told message => exact (Later.refl o).tell message

theorem later_wantFull (o : Outlook) : Later o o.wantFull := by
  refine Outlook.wantFull_cases o (fun _ _ ht => Announced.later ht) fun _ _ ht _ => ?_
  exact ((Announced.later ht).want 0).withReason _

theorem later_wantAfter (o : Outlook) (last runs : Nat) : Later o (o.wantAfter last runs) :=
  wantAfter_cases o last runs (fun reason message h => (h.withReason reason).tell message)
    (fun _ => .refl o) (fun _ => (Later.refl o).want last)
    (fun _ => (Later.refl o).want (last + 1))
    fun _ _ => ((Later.refl o).want last).want (last + 1)

theorem later_wantIncrementals (o : Outlook) (runs : Nat) :
    Later o (o.wantIncrementals runs) := by
  unfold Outlook.wantIncrementals
  split
  · have hreason : Later o (o.excuse "new disk can't be dumped in degraded mode") :=
      (Later.refl o).withReason _
    dsimp only
    split
    · exact hreason.want 1
    · exact hreason
  · exact (later_reckonAbove o _ runs).trans (later_wantAfter _ _ runs)

theorem later_chooseLevels (o : Outlook) (runs : Nat) : Later o (o.chooseLevels runs) := by
  have hasked : ∀ {asked}, Outlook.AskedFull o asked → Later o asked := by
    intro asked hfull
    cases hfull with
    | full => exact later_wantFull o
    | nothing => exact .refl o
  refine Outlook.chooseLevels_cases o runs (fun _ _ _ => ?_) (fun hfull => hasked hfull)
    fun hfull _ _ => (hasked hfull).trans (later_wantIncrementals _ runs)
  exact (((Later.refl o).tell _).want 1).withReason _

/-- A verdict goes by the history as it is. -/
theorem later_judge (o : Outlook) (s : Settings) (r : Rotation) : Later o (o.judge s r).1 := by
  have hwatched := (Later.refl o).revised (revised_watched o s r)
  have hexpected := hwatched.revised (revised_expectFullElsewhere _)
  have hconsidered := (Later.refl o).revised (revised_considered o s r)
  exact judge_cases (P := fun judged => Later o judged.1) o s r hwatched hexpected hexpected
    (fun runs => hconsidered.trans (later_chooseLevels _ runs))
    fun runs _ => hconsidered.trans (later_chooseLevels _ runs)

/-! ### Levels in ascending order -/

/-- The full dump is the only level that is wanted before the incrementals. -/
theorem AskedFull.wanted_le {asked : Outlook} (h : AskedFull o asked) (hw : o.wanted = []) :
    asked.wanted = [] ∨ asked.wanted = [0] := by
  cases h with
  | full =>
    refine wantFull_cases o (fun _ _ ht => .inl (ht.wanted.trans hw)) fun _ told ht reason => ?_
    refine .inr ?_
    show told.wanted ++ [0] = [0]
    rw [ht.wanted, hw]
    rfl
  | nothing => exact .inl hw

/-- Incrementals are wanted in ascending order. -/
theorem wantAfter_wanted (o : Outlook) (last runs : Nat) : ∃ added : List Nat,
    (o.wantAfter last runs).wanted = o.wanted ++ added ∧ (0 :: added).Pairwise (· < ·) := by
  refine wantAfter_cases o last runs (fun _ _ h => h) (fun _ => ⟨[], by simp, by simp⟩)
    (fun hpos => ⟨[last], rfl, by simpa using hpos⟩) (fun _ => ⟨[last + 1], rfl, by simp⟩)
    fun hpos _ => ⟨[last, last + 1], by simp [want], by simpa using hpos⟩

theorem wantIncrementals_wanted (o : Outlook) (runs : Nat) : ∃ added : List Nat,
    (o.wantIncrementals runs).wanted = o.wanted ++ added ∧ (0 :: added).Pairwise (· < ·) := by
  unfold wantIncrementals
  split
  · dsimp only
    split
    · exact ⟨[1], rfl, by simp⟩
    · exact ⟨[], (List.append_nil _).symm, by simp⟩
  · rename_i last _
    obtain ⟨what, h⟩ := o.reckonAbove_eq last runs
    rw [h]
    exact (o.reckon what).wantAfter_wanted last runs

/-- Levels are wanted in ascending order, and none is wanted twice. -/
theorem pairwise_chooseLevels (hw : o.wanted = []) (runs : Nat) :
    (o.chooseLevels runs).wanted.Pairwise (· < ·) := by
  refine chooseLevels_cases o runs (fun _ _ _ => ?_) (fun hfull => ?_) fun {asked} hfull _ _ => ?_
  · simp [want, tell, say, hw]
  · rcases hfull.wanted_le hw with h | h <;> simp [h]
  · obtain ⟨added, h, hadded⟩ := asked.wantIncrementals_wanted runs
    rw [h]
    rcases hfull.wanted_le hw with hnone | hzero
    · rw [hnone]
      exact hadded.of_cons
    · rw [hzero]
      exact hadded

theorem dropRepeats_sublist (levels : List Nat) : (dropRepeats levels).Sublist levels := by
  fun_induction dropRepeats levels with
  | case1 b rest ih => exact ih.cons _
  | case2 a b rest hab ih => exact ih.cons_cons _
  | case3 levels hshort => exact .refl _

/-- Levels are asked for in ascending order. -/
theorem pairwise_of_judge {s : Settings} {r : Rotation} {levels : List Nat} (ho : Fits d o)
    (hj : o.judge s r = (o', .ask levels)) : levels.Pairwise (· < ·) := by
  obtain ⟨trusted, runs, ht, rfl, rfl⟩ := chosen_of_judge ho hj
  have hsub := (List.take_sublist maxLevels _).trans
    (dropRepeats_sublist (trusted.chooseLevels runs).wanted)
  exact (pairwise_chooseLevels ht.wanted runs).sublist hsub

end Outlook

/-! ## The terms of a disk -/

/-- What a verdict lays down for the disk `d` with the history `h`, if it asks for sizes. -/
def LaidDown (d : Disk) (h : History) (t : Terms) : Prop :=
  ∃ (s : Settings) (r : Rotation) (today : Int) (o : Outlook) (levels : List Nat),
    (Outlook.ofHistory d h r s.reserve today).judge s r = (o, .ask levels) ∧
      t = ⟨o.lastLevel, levels.map fun l => (l, h.watermark l)⟩

/-- No level is laid down twice. -/
theorem LaidDown.nodup (hl : LaidDown d h t) :
    (t.levels.map (·.1)).Nodup := by
  obtain ⟨s, r, today, o, levels, hj, rfl⟩ := hl
  have hnodup : levels.Nodup :=
    (Outlook.pairwise_of_judge (Outlook.fits_ofHistory ..) hj).imp Nat.ne_of_lt
  simpa [Function.comp_def] using hnodup

def DiskPlan.PreparedFrom (d : Disk) (h : History) (p : DiskPlan) : Prop :=
  p.levels = [] ∨ LaidDown d h p.terms

namespace Planning

open Night

/-- The history that a verdict goes by is the one that was looked up. -/
theorem history_of_judge {s : Settings} {r : Rotation} {reserve : Nat} {today : Int} {o : Outlook}
    {verdict : Verdict} (hj : (Outlook.ofHistory d h r reserve today).judge s r = (o, verdict)) :
    o.history = h := by
  have hlater := Outlook.later_judge (Outlook.ofHistory d h r reserve today) s r
  rw [hj] at hlater
  exact hlater.history

theorem Verdicted.preparedFrom (hv : Verdicted n id h m) (hlevels : (n.plan id).levels = []) :
    (m.plan id).PreparedFrom (n.plan id).disk h := by
  cases hv with
  | asked s r today runs judged strategy becomes =>
    refine Or.inr ⟨s, r, today, _, _, judged, ?_⟩
    rw [becomes.plan]
    simp [DiskPlan.terms, takeOutlook, history_of_judge judged, Function.comp_def]
  | failed d reason becomes => exact Or.inl (by rw [becomes.plan]; exact hlevels)
  | leftOut d sound only hosts place skips plan => exact Or.inl (by rw [plan]; exact hlevels)

/-- **Terms.** The terms of every disk come from its own history, as the store has it. -/
theorem leads_prepareAll_terms {disks : List Disk} (hn : n.Fresh disks) (store : Store) :
    Leads (prepareAll store) n (fun _ m => ∀ id < n.plans.length, ∃ history,
      store.history? (n.hostName id) (n.diskName id) = .ok history ∧
        (m.plan id).PreparedFrom (n.plan id).disk (history.getD {})) anyhow := by
  refine leads_prepareAll_each (Q := fun id p _ => ∃ history,
    store.history? (n.hostName id) (n.diskName id) = .ok history ∧
      p.PreparedFrom (n.plan id).disk (history.getD {})) hn store ?_
  intro id _ m history hs hlt hp hplan hhistory
  have hlevels : (m.plan id).levels = [] := by rw [hplan, hn.levels]
  refine (leads_prepare_verdicted hs hlt hp history).imp fun _ k hverdict => ?_
  exact ⟨history, hhistory, hplan ▸ hverdict.preparedFrom hlevels⟩

end Planning

end NightlyBackup
