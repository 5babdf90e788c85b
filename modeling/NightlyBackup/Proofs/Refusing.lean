import NightlyBackup.Proofs.Fulls
import NightlyBackup.Proofs.Judging

/-!
A directive to make a full dump of a disk whose strategy has none. It is refused, and the operator
is told. The night is then compared with the one in which the directive was not given: both are
the same but for the refusal, unless the disk is a `nofull` one whose last level was not 1. Such a
disk counts as dumped at level 1, but not where the directive is refused.
-/

namespace NightlyBackup

variable {n m : Night} {id : Nat} {d : Disk} {h : History}

def History.unforced (h : History) : History :=
  { h with directives := { h.directives with forceFull := false } }

def Disk.refusedFull (d : Disk) : Event :=
  .warning ("Cannot force full dump of " ++ (d.host ++ ":" ++ d.name) ++ " with "
    ++ d.strategy.name ++ " option.")

def DiskPlan.unforced (p : DiskPlan) : DiskPlan := { p with history := p.history.map (·.unforced) }

namespace Outlook

variable {o : Outlook} {e : Event} {ds : Directives}

def besides (e : Event) (ds : Directives) (o : Outlook) : Outlook :=
  { o with history := { o.history with directives := ds }, notices := e :: o.notices }

/-! ### What is told first makes no difference later -/

section
variable (o e ds)

@[simp]
theorem lastLevel_besides : (o.besides e ds).lastLevel = o.lastLevel := rfl

@[simp]
theorem directives_besides : (o.besides e ds).directives = o.directives := rfl

@[simp]
theorem levelLabel_besides (level : Nat) :
    (o.besides e ds).history.levelLabel? level = o.history.levelLabel? level := rfl

end

theorem besides_announceOverwrite (o : Outlook) (level : Nat) (label : String) (runs : Int) :
    (o.besides e ds).announceOverwrite level label runs =
      (o.announceOverwrite level label runs).besides e ds := by
  unfold announceOverwrite
  rw [apply_ite (besides e ds)]
  rfl

theorem besides_watchFull (o : Outlook) (r : Rotation) :
    (o.besides e ds).watchFull r = (o.watchFull r).besides e ds := by
  simp only [watchFull, lastLevel_besides, levelLabel_besides]
  cases o.lastLevel with
  | none => rfl
  | some last =>
    cases o.history.levelLabel? 0 with
    | none => rfl
    | some label => exact besides_announceOverwrite ..

theorem besides_watchLevel1 (o : Outlook) (r : Rotation) :
    (o.besides e ds).watchLevel1 r = (o.watchLevel1 r).besides e ds := by
  simp only [watchLevel1, lastLevel_besides, levelLabel_besides]
  cases o.lastLevel with
  | none => rfl
  | some last =>
    cases o.history.levelLabel? 1 with
    | none => rfl
    | some label =>
      dsimp only
      rw [besides_announceOverwrite]
      simp only [apply_ite (besides e ds)]
      rfl

theorem besides_reckonPriority (o : Outlook) :
    (o.besides e ds).reckonPriority = o.reckonPriority.besides e ds := by
  simp only [reckonPriority, apply_ite (besides e ds)]
  rfl

theorem besides_expectFullElsewhere (o : Outlook) :
    (o.besides e ds).expectFullElsewhere = o.expectFullElsewhere.besides e ds := by
  simp only [expectFullElsewhere, apply_ite (besides e ds)]
  rfl

theorem besides_trustTapes (o : Outlook) (reserve : Nat) :
    (o.besides e ds).trustTapes reserve = (o.trustTapes reserve).besides e ds := by
  simp only [trustTapes, apply_ite (besides e ds)]
  rfl

theorem besides_wantFull (o : Outlook) : (o.besides e ds).wantFull = o.wantFull.besides e ds := by
  unfold wantFull
  by_cases htold : (o.directives.forceBump && o.lastLevel.isNone) = true
  · simp only [directives_besides, lastLevel_besides, htold, if_true, apply_ite (besides e ds)]
    rfl
  · simp only [directives_besides, lastLevel_besides, htold, apply_ite (besides e ds)]
    rfl

theorem besides_wantAfter (o : Outlook) (last runs : Nat) :
    (o.besides e ds).wantAfter last runs = (o.wantAfter last runs).besides e ds := by
  unfold wantAfter
  by_cases hpos : last > 0
  · simp only [hpos, if_true, apply_ite (besides e ds)]
    rfl
  · simp only [hpos, if_false, apply_ite (besides e ds)]
    rfl

theorem besides_reckonAbove (o : Outlook) (last runs : Nat) :
    (o.besides e ds).reckonAbove last runs = (o.reckonAbove last runs).besides e ds := by
  simp only [reckonAbove, apply_ite (besides e ds)]
  rfl

theorem besides_wantIncrementals (o : Outlook) (runs : Nat) :
    (o.besides e ds).wantIncrementals runs = (o.wantIncrementals runs).besides e ds := by
  simp only [wantIncrementals, lastLevel_besides]
  cases o.lastLevel with
  | none =>
    simp only [apply_ite (besides e ds)]
    rfl
  | some last =>
    dsimp only
    rw [besides_reckonAbove, besides_wantAfter]

theorem besides_chooseLevels (o : Outlook) (runs : Nat) :
    (o.besides e ds).chooseLevels runs = (o.chooseLevels runs).besides e ds := by
  have hfull : (if (o.besides e ds).wantsFull then (o.besides e ds).wantFull else o.besides e ds) =
      (if o.wantsFull then o.wantFull else o).besides e ds := by
    rw [besides_wantFull, apply_ite (besides e ds)]
    rfl
  unfold chooseLevels
  simp only [hfull]
  generalize (if o.wantsFull then o.wantFull else o) = asked
  rw [besides_wantIncrementals]
  simp only [apply_ite (besides e ds)]
  rfl

def weigh (o : Outlook) (s : Settings) (r : Rotation) : Outlook × Verdict :=
  let o := ((o.watchFull r).watchLevel1 r).reckonPriority
  if o.fullsElsewhere && o.nextFull ≤ 0 then (o, .leaveOut 0 "skip-full")
  else
    let o := o.expectFullElsewhere
    if o.disk.strategy = .incrementalOnly && o.lastLevel.isNone && !o.directives.forceFull then
      (o, .fail "Skipping incronly because no full dump were done")
    else if o.disk.skipIncr && o.nextFull > 0 then (o, .leaveOut 1 "skip-incr")
    else
      let o := o.trustTapes s.reserve
      let o := o.chooseLevels (o.history.runsAt o.lastLevel r s.reserve s.runTapes)
      let levels := (dropRepeats o.wanted).take maxLevels
      if levels.isEmpty then (o, .fail "no dump level can be estimated") else (o, .ask levels)

theorem judge_eq (o : Outlook) (s : Settings) (r : Rotation) :
    o.judge s r = (o.force s.dumpCycle).weigh s r := rfl

theorem besides_weigh (o : Outlook) (s : Settings) (r : Rotation) :
    (o.besides e ds).weigh s r = ((o.weigh s r).1.besides e ds, (o.weigh s r).2) := by
  have hpair : ∀ {c : Prop} [Decidable c] (a b : Outlook × Verdict),
      ((if c then a else b).1.besides e ds, (if c then a else b).2) =
        if c then (a.1.besides e ds, a.2) else (b.1.besides e ds, b.2) := by
    intro c _ a b
    split <;> rfl
  simp only [weigh, besides_watchFull, besides_watchLevel1, besides_reckonPriority,
    besides_expectFullElsewhere, besides_trustTapes, hpair]
  have hchoose : ∀ seen : Outlook, (seen.besides e ds).chooseLevels
      ((seen.besides e ds).history.runsAt (seen.besides e ds).lastLevel r s.reserve s.runTapes) =
        (seen.chooseLevels (seen.history.runsAt seen.lastLevel r s.reserve s.runTapes)).besides
          e ds := fun seen => besides_chooseLevels seen _
  simp only [hchoose]
  rfl

/-! ### The directive and the last level -/

variable {r : Rotation} {reserve dumpCycle runs : Nat} {today : Int} {s : Settings}

theorem force_refused (hforced : h.directives.forceFull = true) (hskips : d.strategy.skipsFulls) :
    (ofHistory d h r reserve today).force dumpCycle =
      (ofHistory d h.unforced r reserve today).besides d.refusedFull h.directives := by
  have hdirected : (ofHistory d h r reserve today).directives.forceFull = true := hforced
  have hstrategy : (ofHistory d h r reserve today).disk.strategy.skipsFulls = true := hskips
  rw [force, if_pos hdirected, if_pos hstrategy]
  rfl

/-- Without the directive, a `nofull` disk counts as dumped at level 1. -/
theorem force_unforced : (ofHistory d h.unforced r reserve today).force dumpCycle =
    { ofHistory d h.unforced r reserve today with
      lastLevel := if d.strategy = .noFull then some 1 else h.lastDumped r reserve } := by
  have hdirected : ¬(ofHistory d h.unforced r reserve today).directives.forceFull = true :=
    Bool.false_ne_true
  rw [force, if_neg hdirected]
  show (if d.strategy = .noFull then _ else _) = _
  split <;> rfl

/-- Where a `nofull` disk was last dumped at level 1, that it counts as such makes no
difference. -/
theorem judge_of_same_last (s : Settings) (today : Int)
    (hlast : d.strategy = .noFull → h.lastDumped r reserve = some 1) :
    (ofHistory d h.unforced r reserve today).judge s r =
      (ofHistory d h.unforced r reserve today).weigh s r := by
  have hsame : (if d.strategy = .noFull then some 1 else h.lastDumped r reserve) =
      h.lastDumped r reserve := by
    split
    · exact (hlast ‹_›).symm
    · rfl
  rw [judge_eq, force_unforced, hsame]
  rfl

theorem judge_refused (s : Settings) (r : Rotation) (reserve : Nat) (today : Int)
    (hforced : h.directives.forceFull = true) (hskips : d.strategy.skipsFulls) :
    (ofHistory d h r reserve today).judge s r =
      (((ofHistory d h.unforced r reserve today).weigh s r).1.besides d.refusedFull h.directives,
        ((ofHistory d h.unforced r reserve today).weigh s r).2) := by
  rw [judge_eq, force_refused hforced hskips, besides_weigh]

@[simp]
theorem lastLevel_announceOverwrite (o : Outlook) (level : Nat) (label : String) (runs : Int) :
    (o.announceOverwrite level label runs).lastLevel = o.lastLevel := by
  unfold announceOverwrite
  split <;> rfl

theorem lastLevel_watchFull (o : Outlook) (r : Rotation) :
    (o.watchFull r).lastLevel = o.lastLevel := by
  unfold watchFull
  split
  · exact lastLevel_announceOverwrite ..
  · rfl

theorem lastLevel_watchLevel1 (o : Outlook) (r : Rotation) :
    (o.watchLevel1 r).lastLevel = some 1 ↔ o.lastLevel = some 1 := by
  unfold watchLevel1
  split
  · rename_i last label hlast _
    split
    · dsimp only
      split
      · simp only [hlast, Option.some.injEq]
        omega
      · rw [lastLevel_announceOverwrite]
    · rfl
  · rfl

theorem lastLevel_reckonPriority (o : Outlook) : o.reckonPriority.lastLevel = o.lastLevel := by
  unfold reckonPriority
  split <;> rfl

theorem lastLevel_expectFullElsewhere (o : Outlook) :
    o.expectFullElsewhere.lastLevel = some 1 ↔ o.lastLevel = some 1 := by
  have hlast : some (o.lastLevel.getD 0) = some 1 ↔ o.lastLevel = some 1 := by
    cases o.lastLevel <;> simp
  unfold expectFullElsewhere
  split
  · dsimp only
    split
    · exact hlast
    · exact hlast
  · rfl

theorem lastLevel_chooseLevels (o : Outlook) (runs : Nat) :
    (o.chooseLevels runs).lastLevel = o.lastLevel := by
  refine chooseLevels_cases o runs (fun _ _ _ => rfl) (fun hfull => hfull.adds.lastLevel) ?_
  intro asked hfull _ _
  exact (adds_wantIncrementals asked runs).lastLevel.trans hfull.adds.lastLevel

/-! ### What has overflowed -/

/-- The tapes are looked at without reckoning, and directives are left as they are. -/
theorem overflow_watched (o : Outlook) (r : Rotation) :
    ((o.watchFull r).watchLevel1 r).overflow = o.overflow ∧
      ((o.watchFull r).watchLevel1 r).directives = o.directives := by
  have hannounce : ∀ (o : Outlook) level label runs,
      (o.announceOverwrite level label runs).overflow = o.overflow ∧
        (o.announceOverwrite level label runs).directives = o.directives := by
    intro o level label runs
    unfold announceOverwrite
    split <;> exact ⟨rfl, rfl⟩
  have hfull : (o.watchFull r).overflow = o.overflow ∧
      (o.watchFull r).directives = o.directives := by
    unfold watchFull
    split
    · exact hannounce ..
    · exact ⟨rfl, rfl⟩
  rw [← hfull.1, ← hfull.2]
  unfold watchLevel1
  split
  · split
    · dsimp only
      split <;> exact hannounce ..
    · exact ⟨rfl, rfl⟩
  · exact ⟨rfl, rfl⟩

/-- Before levels are chosen, only a directive to make a full dump can overflow anything. -/
theorem overflow_seen (hforce : o.directives.forceFull = false) (r : Rotation) :
    ((o.watchFull r).watchLevel1 r).reckonPriority.expectFullElsewhere.overflow = o.overflow := by
  obtain ⟨hkept, hdirectives⟩ := overflow_watched o r
  rw [← hkept, reckonPriority, hdirectives, hforce, if_neg (by simp)]
  unfold expectFullElsewhere
  split
  · dsimp only
    split <;> rfl
  · rfl

/-! ### The verdict on a disk that takes no full dumps -/

theorem trustTapes_of_skipsFulls (hskips : o.disk.strategy.skipsFulls = true) (reserve : Nat) :
    o.trustTapes reserve = o := by
  rw [trustTapes, if_neg]
  rintro ⟨-, -, hfulls, -⟩
  rw [hskips] at hfulls
  cases hfulls

/-- A `nofull` disk is left out if it takes no incrementals either; otherwise levels are
chosen. -/
theorem weigh_of_noFull (ho : Fits d o) (hstrategy : d.strategy = .noFull) (s : Settings)
    (r : Rotation) : ∃ seen runs, Fits d seen ∧
      (seen.lastLevel = some 1 ↔ o.lastLevel = some 1) ∧
      (o.directives.forceFull = false → seen.overflow = o.overflow) ∧
        o.weigh s r =
          if d.skipIncr then (seen, .leaveOut 1 "skip-incr")
          else if ((dropRepeats (seen.chooseLevels runs).wanted).take maxLevels).isEmpty then
            (seen.chooseLevels runs, .fail "no dump level can be estimated")
          else (seen.chooseLevels runs,
            .ask ((dropRepeats (seen.chooseLevels runs).wanted).take maxLevels)) := by
  have hskips : d.strategy.skipsFulls = true := by
    rw [hstrategy]
    rfl
  have hwatched := ho.revised (((revised_watchFull o r).trans (revised_watchLevel1 _ r)).trans
    (revised_reckonPriority _))
  have hseen := hwatched.revised (revised_expectFullElsewhere _)
  have hlast : ((o.watchFull r).watchLevel1 r).reckonPriority.expectFullElsewhere.lastLevel =
      some 1 ↔ o.lastLevel = some 1 := by
    rw [lastLevel_expectFullElsewhere, lastLevel_reckonPriority, lastLevel_watchLevel1,
      lastLevel_watchFull]
  have hoverflow := fun hforce => overflow_seen (o := o) hforce r
  have hahead : ¬((o.watchFull r).watchLevel1 r).reckonPriority.nextFull ≤ 0 := by
    have := hwatched.ahead hskips
    omega
  unfold weigh
  generalize ((o.watchFull r).watchLevel1 r).reckonPriority = watched
    at hseen hlast hoverflow hahead
  have htrusts := trustTapes_of_skipsFulls (hseen.disk ▸ hskips) s.reserve
  refine ⟨watched.expectFullElsewhere, watched.expectFullElsewhere.history.runsAt
    watched.expectFullElsewhere.lastLevel r s.reserve s.runTapes, hseen, hlast, hoverflow, ?_⟩
  simp [hahead, htrusts, hseen.disk, hseen.ahead hskips, hstrategy]

/-- Some level is wanted after a dump at level 1. -/
theorem wanted_wantIncrementals (hlast : o.lastLevel = some 1) (runs : Nat) :
    (o.wantIncrementals runs).wanted ≠ [] := by
  have hwant : ∀ (o : Outlook) (level : Nat), (o.want level).wanted ≠ [] := by
    intro o level
    simp [want]
  rw [wantIncrementals, hlast]
  show ((o.reckonAbove 1 runs).wantAfter 1 runs).wanted ≠ []
  exact wantAfter_cases _ 1 runs (fun _ _ h => h) (fun hzero => absurd hzero Nat.one_ne_zero)
    (fun _ => hwant _ _) (fun _ => hwant _ _) fun _ _ => hwant _ _

theorem wanted_chooseLevels (hlast : o.lastLevel = some 1) (hincr : o.disk.skipIncr = false)
    (hstrategy : o.disk.strategy = .noFull) (runs : Nat) : (o.chooseLevels runs).wanted ≠ [] := by
  unfold chooseLevels
  split
  · show o.wanted ++ [1] ≠ []
    simp
  · dsimp only
    generalize hasked : (if o.wantsFull then o.wantFull else o) = asked
    have hadds : Adds (· = 0) o asked := by
      rw [← hasked]
      split
      · exact adds_wantFull o
      · exact .refl o
    rw [hadds.disk, hincr, hstrategy, if_neg (by simp)]
    exact wanted_wantIncrementals (hadds.lastLevel.trans hlast) runs

theorem dropRepeats_ne_nil {levels : List Nat} (hne : levels ≠ []) : dropRepeats levels ≠ [] := by
  fun_induction dropRepeats levels with
  | case1 b rest ih => exact ih (by simp)
  | case2 a b rest hab ih => simp
  | case3 levels hshort => exact hne

/-- Levels are asked for after a dump at level 1. -/
theorem asks_of_last (ho : Fits d o) (hstrategy : d.strategy = .noFull)
    (hincr : d.skipIncr = false) (hlast : o.lastLevel = some 1) (s : Settings) (r : Rotation) :
    ∃ o' levels, o.weigh s r = (o', .ask levels) ∧ o'.lastLevel = some 1 := by
  obtain ⟨seen, runs, hseen, hlevel, -, hweigh⟩ := weigh_of_noFull ho hstrategy s r
  have hseenLast := hlevel.mpr hlast
  have hwanted := wanted_chooseLevels hseenLast (hseen.disk ▸ hincr) (hseen.disk ▸ hstrategy) runs
  have hasked : ¬((dropRepeats (seen.chooseLevels runs).wanted).take maxLevels).isEmpty := by
    simp [maxLevels, dropRepeats_ne_nil hwanted]
  rw [hincr, if_neg Bool.false_ne_true, if_neg hasked] at hweigh
  exact ⟨_, _, hweigh, (lastLevel_chooseLevels seen runs).trans hseenLast⟩

/-- After any other last level it stays another one, whether levels are asked for or not. -/
theorem weigh_of_other_last (ho : Fits d o) (hstrategy : d.strategy = .noFull)
    (hincr : d.skipIncr = false) (hlast : o.lastLevel ≠ some 1) (s : Settings) (r : Rotation) :
    ∃ o', ((∃ reason, o.weigh s r = (o', .fail reason)) ∨
      ∃ levels, o.weigh s r = (o', .ask levels)) ∧ o'.lastLevel ≠ some 1 := by
  obtain ⟨seen, runs, -, hlevel, -, hweigh⟩ := weigh_of_noFull ho hstrategy s r
  have hother : (seen.chooseLevels runs).lastLevel ≠ some 1 := by
    rw [lastLevel_chooseLevels]
    exact fun hone => hlast (hlevel.mp hone)
  rw [hincr, if_neg Bool.false_ne_true] at hweigh
  refine ⟨seen.chooseLevels runs, ?_, hother⟩
  split at hweigh
  · exact Or.inl ⟨_, hweigh⟩
  · exact Or.inr ⟨_, hweigh⟩

end Outlook

/-! ## Two nights, with the directive and without it -/

namespace Night

/-- The night without what the operator was told, and without the directive in the copies of
histories. -/
def untold (n : Night) : Night := { n with plans := n.plans.map (·.unforced), events := [] }

def entered (id : Nat) (o : Outlook) (runs : Nat) (m : Night) : Verdict → Night
  | .fail reason => (m.withQueues (m.queues.join .failed id)).setPlan id fun p =>
      { p with fault := some reason }
  | .leaveOut level reason =>
      { m.say (.skipped (m.hostName id) (m.diskName id) level reason) with
        skipped := m.skipped ++ [⟨id, level, reason⟩] }
  | .ask levels =>
      (m.setPlan id (Planning.takeOutlook o levels runs)).withQueues (m.queues.join .start id)

end Night

namespace Planning

open Night

theorem forM_say (es : List Event) (n : Night) : es.forM say n = .ok () (n.after es) := by
  induction es generalizing n with
  | nil => simp [after, pure, EStateM.pure]
  | cons e es ih =>
    show (say e >>= fun _ => es.forM say) n = _
    have hsaid : say e n = .ok () (n.say e) := rfl
    rw [bind_of_ok hsaid, ih]
    simp [after, Night.say]

theorem enterVerdict_ok (hs : m.Sound) (hid : id < m.plans.length) (hp : m.place id = none)
    (o : Outlook) (runs : Nat) (verdict : Verdict) :
    enterVerdict id o runs verdict m = .ok () (entered id o runs m verdict) := by
  cases verdict with
  | fail reason => exact bind_of_ok (enqueue_ok hs hid hp)
  | leaveOut level reason => rfl
  | ask levels =>
    exact enqueue_ok (hs.setPlan _) (by simpa using hid) hp

/-- Where the disk can be dumped as it is configured, its history is judged. -/
theorem prepare_ok (hs : n.Sound) (hid : id < n.plans.length) (hp : n.place id = none)
    (hrefusal : (n.plan id).disk.refusal? = none) {o : Outlook} {verdict : Verdict}
    (hj : (Outlook.ofHistory (n.plan id).disk h n.rotation n.settings.reserve n.today).judge
      n.settings n.rotation = (o, verdict)) :
    prepare id (some h) n = .ok ()
      (entered id o (o.history.runsAt o.lastLevel n.rotation n.settings.reserve n.settings.runTapes)
        (((n.setPlan id bypassHolding).reckon o.overflow).after o.notices) verdict) := by
  have hrun : Leads (prepare id (some h)) n (fun _ k => k = entered id o (o.history.runsAt
      o.lastLevel n.rotation n.settings.reserve n.settings.runTapes)
        (((n.setPlan id bypassHolding).reckon o.overflow).after o.notices) verdict) never := by
    have hplace : (((n.setPlan id bypassHolding).reckon o.overflow).after o.notices).place id =
        none := hp
    simp only [prepare, judge, Planning.setPlan, leads_bind, leads_get, leads_modify, leads_reckon,
      hrefusal, hj, Option.isNone_some, Option.getD_some, Bool.false_eq_true, if_false]
    refine leads_of_ok (forM_say _ _) (leads_of_ok (enterVerdict_ok ?_ ?_ hplace _ _ _) rfl)
    · exact ⟨hs.valid, by simpa [after, Night.reckon] using hs.registered⟩
    · simpa [after, Night.reckon] using hid
  obtain ⟨_, _, hok, rfl⟩ := hrun.exists_ok
  exact hok

/-- Where it cannot, nobody looks at its history. -/
theorem prepare_of_refusal (hs : n.Sound) (hid : id < n.plans.length) (hp : n.place id = none)
    {reason : String} (hrefusal : (n.plan id).disk.refusal? = some reason) :
    ∃ a, ∀ h, prepare id (some h) n = .ok () a := by
  have hfails : ∀ h, prepare id (some h) n = failUnqueued id reason n := by
    intro h
    have hget : (get : Planning Night) n = .ok n n := rfl
    simp only [prepare, bind_of_ok hget, hrefusal]
    rfl
  refine ⟨(n.withQueues (n.queues.join .failed id)).setPlan id fun p =>
    { p with fault := some reason }, fun h => ?_⟩
  exact (hfails h).trans (bind_of_ok (enqueue_ok hs hid hp))

/-! ### What the two nights have in common -/

variable {o o' : Outlook} {runs runs' level : Nat} {reason : String} {levels : List Nat}
  {es es' : List Event} {e : Event} {ds : Directives} {verdict : Verdict}

/-- Nothing of the outlook is entered for a disk that is not asked about. -/
theorem untold_leaveOut : (entered id o runs (m.after es) (.leaveOut level reason)).untold =
    (entered id o' runs' (m.after es') (.leaveOut level reason)).untold := rfl

theorem untold_ask (hu : ∀ p, (takeOutlook o levels runs p).unforced =
      (takeOutlook o' levels runs' p).unforced) :
    (entered id o runs (m.after es) (.ask levels)).untold =
      (entered id o' runs' (m.after es') (.ask levels)).untold := by
  have hplans : (m.plans.modify id (takeOutlook o levels runs)).map (·.unforced) =
      (m.plans.modify id (takeOutlook o' levels runs')).map (·.unforced) := by
    apply List.ext_getElem?
    intro j
    simp only [List.getElem?_map, List.getElem?_modify]
    by_cases hj : id = j
    · cases m.plans[j]? <;> simp [hj, hu]
    · simp [hj]
  exact congrArg (fun plans =>
    ({ m.untold with plans := plans, queues := m.queues.join .start id } : Night)) hplans

theorem untold_besides (hds : ({ o.history with directives := ds } : History).unforced =
      o.history.unforced) :
    (entered id (o.besides e ds) runs (m.after es) verdict).untold =
      (entered id o runs (m.after es') verdict).untold := by
  cases verdict with
  | fail reason => rfl
  | leaveOut level reason => rfl
  | ask levels =>
    apply untold_ask
    intro p
    exact congrArg (fun history =>
      ({ takeOutlook o levels runs p with history := some history } : DiskPlan)) hds

/-- What is told when a verdict is entered does not depend on the outlook. -/
theorem exists_events_entered (id : Nat) (m : Night) (verdict : Verdict) :
    ∃ told, ∀ o runs what es, (entered id o runs ((m.reckon what).after es) verdict).events =
      m.events ++ (es ++ told) := by
  cases verdict with
  | fail reason =>
    refine ⟨[], fun _ _ _ es => ?_⟩
    rw [List.append_nil]
    rfl
  | leaveOut level reason =>
    refine ⟨[.skipped (m.hostName id) (m.diskName id) level reason], fun _ _ _ es => ?_⟩
    rw [← List.append_assoc]
    rfl
  | ask levels =>
    refine ⟨[], fun _ _ _ es => ?_⟩
    rw [List.append_nil]
    rfl

theorem lastLevel_untold (n : Night) (id : Nat) :
    (n.untold.plan id).lastLevel = (n.plan id).lastLevel := by
  simp only [plan, untold, List.getD_eq_getElem?_getD, List.getElem?_map]
  cases n.plans[id]? <;> rfl

theorem lastLevel_entered_ask (hid : id < m.plans.length) :
    ((entered id o runs m (.ask levels)).plan id).lastLevel = o.lastLevel := by
  show ((m.setPlan id (takeOutlook o levels runs)).plan id).lastLevel = _
  rw [plan_setPlan_self hid]
  rfl

theorem place_entered_ask (hs : m.Sound) (hid : id < m.plans.length) (hp : m.place id = none) :
    (entered id o runs m (.ask levels)).place id = some .start :=
  (hs.place_join hid hp id).trans (if_pos rfl)

theorem place_entered_fail (hs : m.Sound) (hid : id < m.plans.length) (hp : m.place id = none) :
    (entered id o runs m (.fail reason)).place id = some .failed :=
  (hs.place_join hid hp id).trans (if_pos rfl)

/-! ### Cases -/

section
variable (hs : n.Sound) (hid : id < n.plans.length) (hp : n.place id = none)
  (hd : (n.plan id).disk = d) (hrefusal : d.refusal? = none) (hforced : h.directives.forceFull)
include hs hid hp hd hrefusal hforced

/-- If the last level is the same, nothing but the refusal is different. -/
theorem refused_of_same_last (hskips : d.strategy.skipsFulls)
    (hlast : d.strategy = .noFull → h.lastDumped n.rotation n.settings.reserve = some 1) :
    ∃ a b, prepare id (some h) n = .ok () a ∧ prepare id (some h.unforced) n = .ok () b ∧
      a.untold = b.untold ∧ ∃ told, a.events = n.events ++ d.refusedFull :: told ∧
        b.events = n.events ++ told := by
  subst hd
  have hheld := Outlook.judge_refused n.settings n.rotation n.settings.reserve n.today
    hforced hskips
  have hfree := Outlook.judge_of_same_last n.settings n.today hlast
  have hhistory := (Outlook.later_judge (Outlook.ofHistory (n.plan id).disk h.unforced n.rotation
    n.settings.reserve n.today) n.settings n.rotation).history
  rw [hfree] at hhistory
  generalize Outlook.weigh _ _ _ = weighed at hheld hfree hhistory
  obtain ⟨o, verdict⟩ := weighed
  obtain ⟨told, htold⟩ := exists_events_entered id (n.setPlan id bypassHolding) verdict
  refine ⟨_, _, prepare_ok hs hid hp hrefusal hheld, prepare_ok hs hid hp hrefusal hfree, ?_,
    o.notices ++ told, ?_, ?_⟩
  · apply untold_besides
    rw [show o.history = h.unforced from hhistory]
    rfl
  · rw [htold]
    rfl
  · rw [htold]
    rfl

/-- A `nofull` disk without incrementals is left out whatever its last level is. -/
theorem refused_of_skipIncr (hstrategy : d.strategy = .noFull) (hincr : d.skipIncr = true) :
    ∃ a b, prepare id (some h) n = .ok () a ∧ prepare id (some h.unforced) n = .ok () b ∧
      a.untold = b.untold := by
  have hskips : d.strategy.skipsFulls = true := by
    rw [hstrategy]
    rfl
  have hleftOut : ∀ {o : Outlook}, o.Fits d → o.directives.forceFull = false → ∃ seen,
      seen.overflow = o.overflow ∧
        o.weigh n.settings n.rotation = (seen, .leaveOut 1 "skip-incr") := by
    intro o ho hforce
    obtain ⟨seen, runs, -, -, hoverflow, hweigh⟩ :=
      Outlook.weigh_of_noFull ho hstrategy n.settings n.rotation
    rw [hincr, if_pos rfl] at hweigh
    exact ⟨seen, hoverflow hforce, hweigh⟩
  have hfits := Outlook.fits_ofHistory d h.unforced n.rotation n.settings.reserve n.today
  obtain ⟨held, hheldFlow, hheld⟩ := hleftOut hfits rfl
  obtain ⟨free, hfreeFlow, hfree⟩ := hleftOut
    (hfits.revised (Outlook.revised_force _ n.settings.dumpCycle))
    (by rw [Outlook.force_unforced]; rfl)
  have hsame : held.overflow = free.overflow := by
    rw [hheldFlow, hfreeFlow, Outlook.force_unforced]
  subst hd
  have hrefused := Outlook.judge_refused n.settings n.rotation n.settings.reserve n.today
    hforced hskips
  rw [hheld] at hrefused
  refine ⟨_, _, prepare_ok hs hid hp hrefusal hrefused, prepare_ok hs hid hp hrefusal hfree, ?_⟩
  rw [← hsame]
  exact untold_leaveOut

/-- Any other `nofull` disk is asked about as one that was last dumped at level 1, but not where
the directive is refused. -/
theorem refused_of_other_last (hstrategy : d.strategy = .noFull) (hincr : d.skipIncr = false)
    (hlast : h.lastDumped n.rotation n.settings.reserve ≠ some 1) :
    ∃ a b, prepare id (some h) n = .ok () a ∧ prepare id (some h.unforced) n = .ok () b ∧
      b.place id = some .start ∧ (b.plan id).lastLevel = some 1 ∧
        (a.place id = some .failed ∨
          a.place id = some .start ∧ (a.plan id).lastLevel ≠ some 1) := by
  have hskips : d.strategy.skipsFulls = true := by
    rw [hstrategy]
    rfl
  have hfits := Outlook.fits_ofHistory d h.unforced n.rotation n.settings.reserve n.today
  obtain ⟨held, hheld, hother⟩ :=
    Outlook.weigh_of_other_last hfits hstrategy hincr hlast n.settings n.rotation
  have hone : ((Outlook.ofHistory d h.unforced n.rotation n.settings.reserve n.today).force
      n.settings.dumpCycle).lastLevel = some 1 := by
    rw [Outlook.force_unforced]
    exact if_pos hstrategy
  obtain ⟨free, levels, hfree, hfreeLast⟩ := Outlook.asks_of_last
    (hfits.revised (Outlook.revised_force _ n.settings.dumpCycle)) hstrategy hincr hone
    n.settings n.rotation
  subst hd
  have hrefused := Outlook.judge_refused n.settings n.rotation n.settings.reserve n.today
    hforced hskips
  have hsound : ∀ what es, (((n.setPlan id bypassHolding).reckon what).after es).Sound :=
    fun what es => ⟨hs.valid, by simpa [after, Night.reckon] using hs.registered⟩
  have hlt : ∀ what es, id < (((n.setPlan id bypassHolding).reckon what).after es).plans.length :=
    fun what es => by simpa [after, Night.reckon] using hid
  refine ⟨_, _, prepare_ok hs hid hp hrefusal hrefused, prepare_ok hs hid hp hrefusal hfree,
    place_entered_ask (hsound _ _) (hlt _ _) hp, ?_, ?_⟩
  · rw [lastLevel_entered_ask (hlt _ _), hfreeLast]
  · rcases hheld with ⟨reason, hheld⟩ | ⟨asked, hheld⟩
    · rw [hheld]
      exact Or.inl (place_entered_fail (hsound _ _) (hlt _ _) hp)
    · rw [hheld]
      refine Or.inr ⟨place_entered_ask (hsound _ _) (hlt _ _) hp, ?_⟩
      rw [lastLevel_entered_ask (hlt _ _)]
      exact hother

end

/-- **A refused directive.** Preparing a disk that takes no full dumps ends the same way whether the
directive to make one is on file or not, but for the refusal that the operator hears of; the
exception is a `nofull` disk last dumped at another level than 1, or never. -/
theorem refused_full_dump (hs : n.Sound) (hid : id < n.plans.length) (hp : n.place id = none)
    (hd : (n.plan id).disk = d) (hskips : d.strategy.skipsFulls)
    (hforced : h.directives.forceFull) :
    ∃ a b, prepare id (some h) n = .ok () a ∧ prepare id (some h.unforced) n = .ok () b ∧
      (a.untold = b.untold ↔ d.refusal?.isSome ∨ d.skipIncr ∨
        (d.strategy = .noFull → h.lastDumped n.rotation n.settings.reserve = some 1)) ∧
      (d.refusal?.isSome → a = b) ∧
      (d.refusal? = none →
        (d.strategy = .noFull → h.lastDumped n.rotation n.settings.reserve = some 1) →
        ∃ told, a.events = n.events ++ d.refusedFull :: told ∧ b.events = n.events ++ told) ∧
      (a.untold ≠ b.untold → b.place id = some .start ∧ (b.plan id).lastLevel = some 1 ∧
        (a.place id = some .failed ∨
          a.place id = some .start ∧ (a.plan id).lastLevel ≠ some 1)) := by
  cases hrefusal : d.refusal? with
  | some reason =>
    obtain ⟨a, ha⟩ := prepare_of_refusal hs hid hp (hd ▸ hrefusal)
    exact ⟨a, a, ha h, ha h.unforced, by simp, fun _ => rfl, by simp, fun hne => absurd rfl hne⟩
  | none =>
    by_cases hlast : d.strategy = .noFull → h.lastDumped n.rotation n.settings.reserve = some 1
    · obtain ⟨a, b, ha, hb, hsame, htold⟩ :=
        refused_of_same_last hs hid hp hd hrefusal hforced hskips hlast
      exact ⟨a, b, ha, hb, ⟨fun _ => Or.inr (Or.inr hlast), fun _ => hsame⟩, by simp,
        fun _ _ => htold, fun hne => absurd hsame hne⟩
    · obtain ⟨hstrategy, hother⟩ := Classical.not_imp.mp hlast
      cases hincr : d.skipIncr with
      | true =>
        obtain ⟨a, b, ha, hb, hsame⟩ :=
          refused_of_skipIncr hs hid hp hd hrefusal hforced hstrategy hincr
        exact ⟨a, b, ha, hb, ⟨fun _ => Or.inr (Or.inl rfl), fun _ => hsame⟩, by simp,
          fun _ h => absurd h hlast, fun hne => absurd hsame hne⟩
      | false =>
        obtain ⟨a, b, ha, hb, hstart, hone, hheld⟩ :=
          refused_of_other_last hs hid hp hd hrefusal hforced hstrategy hincr hother
        have hdiffer : a.untold ≠ b.untold := by
          intro hsame
          have hplace : a.place id = b.place id := congrArg (·.place id) hsame
          have hlevel := congrArg (fun k => (k.plan id).lastLevel) hsame
          simp only [lastLevel_untold] at hlevel
          rcases hheld with hfailed | ⟨-, hother⟩
          · rw [hfailed, hstart] at hplace
            cases hplace
          · exact hother (hlevel.trans hone)
        exact ⟨a, b, ha, hb, by simp [hdiffer, hlast], by simp, fun _ h => absurd h hlast,
          fun _ => ⟨hstart, hone, hheld⟩⟩

def partialDisk : Disk := { Disk.plain "alpha" "/home" 10 default with strategy := .noFull }

def directedHistory : History := { directives := { forceFull := true }, lastLevel := some 2 }

theorem refused_full_dump_of_partial : ∃ n, Night.begin {} [partialDisk] default 0 = .ok n ∧
    n.Sound ∧ 0 < n.plans.length ∧ n.place 0 = none ∧ (n.plan 0).disk = partialDisk ∧
    partialDisk.strategy.skipsFulls ∧ directedHistory.directives.forceFull ∧
    ∃ a b, prepare 0 (some directedHistory) n = .ok () a ∧
      prepare 0 (some directedHistory.unforced) n = .ok () b ∧ a.untold ≠ b.untold ∧
      b.place 0 = some .start ∧ (b.plan 0).lastLevel = some 1 ∧
      (a.place 0 = some .failed ∨
        a.place 0 = some .start ∧ (a.plan 0).lastLevel ≠ some 1) := by
  obtain ⟨n, hbegin, hlt, hdisk, hlast⟩ : ∃ n, Night.begin {} [partialDisk] default 0 = .ok n ∧
      0 < n.plans.length ∧ (n.plan 0).disk = partialDisk ∧
      directedHistory.lastDumped n.rotation n.settings.reserve = some 2 :=
    ⟨_, rfl, by decide, rfl, rfl⟩
  have hfresh := fresh_of_begin hbegin
  obtain ⟨a, b, ha, hb, hsame, -, -, hdiffer⟩ :=
    refused_full_dump hfresh.sound hlt (hfresh.place 0) hdisk rfl
      (show directedHistory.directives.forceFull = true from rfl)
  have hne : a.untold ≠ b.untold := by
    intro heq
    have hwhy := hsame.mp heq
    rw [hlast] at hwhy
    simp [partialDisk, Disk.plain, Disk.refusal?] at hwhy
  exact ⟨n, hbegin, hfresh.sound, hlt, hfresh.place 0, hdisk, rfl, rfl, a, b, ha, hb, hne,
    hdiffer hne⟩

/-- The refusal is told, and yet the last level is another one than without the directive. -/
theorem refused_full_dump_changes_level : ∃ n a b,
    Night.begin {} [partialDisk] default 0 = .ok n ∧
    prepare 0 (some directedHistory) n = .ok () a ∧
    prepare 0 (some directedHistory.unforced) n = .ok () b ∧
    a.events = [partialDisk.refusedFull] ∧ b.events = [] ∧
    (a.plan 0).lastLevel = some 2 ∧ (b.plan 0).lastLevel = some 1 :=
  ⟨_, _, _, rfl, rfl, rfl, rfl, rfl, rfl, rfl⟩

end Planning

end NightlyBackup
