import NightlyBackup.Plan
import NightlyBackup.Proofs.Fulls
import NightlyBackup.Proofs.Judging
import NightlyBackup.Proofs.Learning

/-!
The phases of a night, step by step. Preparation lays down the terms of every disk; from then on
no phase changes them, and none leaves a disk out. Nothing is said that belongs to the written
schedule.
-/

namespace NightlyBackup

open Night Planning

variable {n m k : Night} {id slot h : Nat} {disks : List Disk}

def Scope.preparingAll (n : Night) : Scope where
  replans _ := True
  leavesOut id := id < n.plans.length

namespace Planning

open Night

/-! ## Preparation -/

theorem within_enterVerdict {o : Outlook} {runs : Nat} {verdict : Verdict} :
    Within (.preparing id) (enterVerdict id o runs verdict) := by
  cases verdict with
  | fail reason => exact (within_failUnqueued reason).preparing
  | leaveOut level reason => exact within_skip level reason rfl
  | ask levels => exact (within_setPlan trivial).bind fun _ => within_onQueues _

theorem within_judge (history : History) : Within (.preparing id) (judge id history) := by
  refine .getThen fun n => (within_setPlan trivial).bind fun _ => (within_reckon _).bind fun _ => ?_
  refine Within.bind (.forM fun e he => within_say ?_) fun _ => within_enterVerdict
  have hlater := Outlook.later_judge (Outlook.ofHistory (n.plan id).disk history n.rotation
    n.settings.reserve n.today) n.settings n.rotation
  refine (hlater.notices e he).resolve_left ?_
  exact List.not_mem_nil

theorem within_prepare (history : Option History) :
    Within (.preparing id) (prepare id history) := by
  refine .getThen fun n => ?_
  refine Within.ite ((within_say rfl).bind fun _ => ?_) ?_
  all_goals
    split
    · exact (within_failUnqueued _).preparing
    · exact within_judge _

theorem steps_prepareAll (store : Store) (n : Night) :
    Leads (prepareAll store) n (fun _ m => Steps (.preparingAll n) n m) anyhow := by
  simp only [prepareAll, leads_bind, leads_get]
  refine (Within.forM fun id hid => ?_ : Within (.preparingAll n) _) n |>.mono
    (fun _ _ hm => hm) fun _ _ _ => trivial
  refine .getThen fun m => ?_
  split
  · exact .throw _
  · refine (within_prepare _).mono (fun _ _ => trivial) fun j hj => ?_
    rw [show j = id from hj]
    exact List.mem_range.mp hid

/-! ## The schedule -/

/-- The empty tape fits, if nothing overflows. -/
theorem fit_countNothing (h : (countNothing n).totals.overflow = none) :
    (countNothing n).totals.Fit :=
  ⟨IntWord.check_eq_none.mp (Option.or_eq_none_iff.mp (Totals.overflow_reckon h).2).2,
    (by decide : IntWord.unsigned64.Holds ((0 : Nat) : Int))⟩

theorem within_announcePick (pick : Option Pick) : Within .onTerms (announcePick id pick) := by
  unfold announcePick
  split
  · exact .getThen fun n => within_say rfl
  · exact .pure ()

theorem within_fullMediaSize : Within .onTerms (fullMediaSize id) :=
  (within_mediaSizeAt? 0).bind fun _ => within_getPlan.bind fun _ => .pure _

theorem within_noteDump (fullSize : Option Nat) (fault : Option String) :
    Within .onTerms (noteDump id fullSize fault) := by
  have hwarn : ∀ fault, Within .onTerms (do
      let n ← get
      warn (n.hostName id ++ ":" ++ n.diskName id ++ " " ++ fault) : Planning Unit) :=
    fun _ => .getThen fun n => within_warn _
  unfold noteDump
  cases fullSize with
  | none =>
    cases fault with
    | none => exact .pure ()
    | some fault => exact hwarn fault
  | some fullSize =>
    refine Within.bind (within_count fun _ => .reckon rfl fun _ h => ⟨h.size, h.fullSize⟩)
      fun _ => ?_
    cases fault with
    | none => exact .pure ()
    | some fault => exact hwarn fault

theorem within_scheduleChosen (choice : Choice) : Within .onTerms (scheduleChosen id choice) := by
  refine (within_announcePick _).bind fun _ => ?_
  split
  · exact within_failUnqueued _
  · refine (within_setPlan fun _ => rfl).bind fun _ => within_dumpMediaSize.bind fun size => ?_
    refine within_getPlan.bind fun p => ?_
    have hplace : ∀ fullSize, Within .onTerms (do
        insertScheduled id
        countDump id size
        noteDump id fullSize p.fault) := fun fullSize =>
      within_insertScheduled.bind fun _ =>
        Within.bind (within_count fun _ => .checked rfl) fun _ => within_noteDump _ _
    exact .ite (within_fullMediaSize.map.bind hplace) ((Within.pure _).bind hplace)

theorem within_analyze : Within .onTerms (analyze id) :=
  within_getPlan.bind fun _ => (within_reckon _).bind fun _ => within_scheduleChosen _

theorem within_analyzeNext : Within .onTerms (analyzeNext id) :=
  (within_onQueues _).bind fun _ => within_analyze

/-- What is scheduled comes to an empty schedule. -/
theorem within_analyzeEach : Within .onTerms (do
    (← get).queues.estimated.forM analyzeNext
    modify fun n => { n with totals :=
      { n.totals with threshold := n.totals.balanced * promoteThreshold } }) :=
  .getThen fun _ => Within.bind (.forM fun _ _ => within_analyzeNext) fun _ =>
    within_count fun _ => .of_le rfl (Nat.le_refl _) (Nat.le_refl _)

theorem within_analyzeAll : Within .onTerms analyzeAll :=
  Within.bind (within_count fun _ =>
    ⟨fun h => (Totals.overflow_reckon h).1, fun h _ => fit_countNothing h⟩) fun _ =>
      within_analyzeEach

/-- As long as no overflow is known, the running sizes of a schedule that is drawn up fit. -/
theorem fit_of_analyzed : Leads analyzeAll n
    (fun _ a => a.totals.overflow = none → a.totals.Fit) anyhow := by
  refine (within_analyzeEach (countNothing n)).mono (fun _ a ha h => ?_) fun _ _ _ => trivial
  exact ha.totals.fit h (fit_countNothing (ha.totals.overflow h))

end Planning

/-! ## Fitting -/

namespace Delaying

open Planning

variable {α β : Type} {act : Delaying α}

def Within (may : Scope) (act : Delaying α) : Prop :=
  ∀ s, Leads act s (fun _ t => Steps may s.night t.night) fun _ t => Steps may s.night t.night

namespace Within

variable {may : Scope} {next : α → Delaying β}

theorem lift {act : Planning α} (h : NightlyBackup.Within may act) : Within may (lift act) :=
  fun s => leads_lift.mpr (h s.night)

theorem pure (a : α) : Within may (pure a : Delaying α) := fun _ => .refl

theorem throw (fault : Fault) : Within may (throw fault : Delaying α) := fun _ => .refl

theorem bind (h : Within may act) (h' : ∀ a, Within may (next a)) :
    Within may (act >>= next) := by
  intro s
  rw [leads_bind]
  exact (h s).imp fun a t ht =>
    (h' a t).mono (fun _ _ hk => ht.trans hk) fun _ _ hk => ht.trans hk

theorem get : Within may (get : Delaying Shrinking) := fun _ => .refl

theorem getNight : Within may getNight := get.bind fun _ => pure _

/-- The log is no part of the night. -/
theorem log (f : Shrinking → List BeforeImage) :
    Within may (modify fun s => { s with log := f s } : Delaying Unit) := fun _ => .refl

theorem ite {c : Prop} [Decidable c] {act' : Delaying α} (h : Within may act)
    (h' : Within may act') : Within may (if c then act else act') := by
  split
  · exact h
  · exact h'

theorem forM {ι : Type} {visit : ι → Delaying Unit} (h : ∀ i, Within may (visit i))
    (ids : List ι) : Within may (ids.forM visit) := by
  induction ids with
  | nil => exact pure ()
  | cons i ids ih => exact (h i).bind fun _ => ih

end Within

variable {delete : Bool} {reason : String}

theorem within_exceeds : Within .onTerms exceeds := Within.getNight.bind fun _ => .pure _

theorem within_fallBack : NightlyBackup.Within .onTerms (fallBack id slot) := by
  refine (within_setPlan fun _ => rfl).bind fun _ => within_dumpMediaSize.bind fun size => ?_
  exact NightlyBackup.Within.bind (within_count fun _ => .checked rfl) fun _ =>
    within_resortScheduled

theorem within_drop : NightlyBackup.Within .onTerms (drop id reason) :=
  (within_onQueues _).bind fun _ => within_setPlan fun _ => rfl

theorem follows_uncount {size : Nat} {full : Bool} (n : Night) :
    n.totals.Follows (uncount size full n).totals := by
  refine .reckon rfl fun _ h => ⟨IntWord.holds_of_le h.size (Nat.sub_le ..), ?_⟩
  split
  · exact IntWord.holds_of_le h.fullSize (Nat.sub_le ..)
  · exact h.fullSize

theorem within_delay : Within .onTerms (delay id delete reason) := by
  refine Within.getNight.bind fun n => ?_
  dsimp only
  split
  · exact .throw _
  · refine (Within.lift within_dumpMediaSize).bind fun size => Within.getNight.bind fun m => ?_
    refine (Within.lift (within_count follows_uncount)).bind fun _ => ?_
    refine (Within.log _).bind fun _ => ?_
    split
    · exact .lift within_fallBack
    · exact .lift within_drop

theorem within_delayIfOversize : Within .onTerms (delayIfOversize id) := by
  refine (Within.lift within_dumpMediaSize).bind fun size => Within.getNight.bind fun n => ?_
  refine .ite ?_ (.pure ())
  dsimp only
  split
  · refine (Within.lift ?_).bind fun _ => within_delay
    exact within_setPlan fun _ => DiskPlan.terms_fixMedia
  · exact within_delay

theorem within_whileExceeding {visit : Nat → Delaying Unit}
    (h : ∀ id, Within .onTerms (visit id)) (ids : List Nat) :
    Within .onTerms (whileExceeding visit ids) := by
  induction ids with
  | nil => exact .pure ()
  | cons id rest ih =>
    exact within_exceeds.bind fun _ => .ite ((h id).bind fun _ => ih) (.pure ())

theorem within_delayFull (softly : String) : Within .onTerms (delayFull softly id) := by
  refine Within.getNight.bind fun n => (Within.lift within_dumpMediaSize).bind fun size => ?_
  split
  · exact within_delay
  · exact within_delay

theorem within_dropIncremental : Within .onTerms (dropIncremental id) :=
  (Within.lift within_dumpMediaSize).bind fun _ => within_delay

theorem within_delayForcedFrom (preserved : Option Nat) (places : Nat) (from? : Option Nat) :
    Within .onTerms (delayForcedFrom preserved places from?) := by
  induction places generalizing from? with
  | zero => exact .pure ()
  | succ places ih =>
    cases from? with
    | none => exact .pure ()
    | some id =>
      refine within_exceeds.bind fun _ => .ite (Within.getNight.bind fun n => ?_) (.pure ())
      exact .ite ((within_delayFull _).bind fun _ => ih _) (ih _)

theorem within_delayDumps : Within .onTerms delayDumps := by
  refine Within.getNight.bind fun n => ?_
  refine (Within.forM (fun id => within_delayIfOversize) _).bind fun _ => ?_
  refine Within.getNight.bind fun n => ?_
  refine (within_whileExceeding (fun id => within_delayFull _) _).bind fun _ => ?_
  refine Within.getNight.bind fun n => ?_
  have hrest : Within .onTerms (do
      whileExceeding dropIncremental (incrementals (← Delaying.getNight))) :=
    Within.getNight.bind fun n => within_whileExceeding (fun id => within_dropIncremental) _
  refine .ite ((within_exceeds.bind fun _ => .ite ?_ (.pure ())).bind fun _ => hrest) hrest
  exact Within.getNight.bind fun _ => within_delayForcedFrom _ _ _

/-- The size that the schedule has once a change is undone fits, if it has been reckoned with. -/
theorem steps_undo {image : BeforeImage} {total : Nat}
    (htotal : n.totals.overflow = none → IntWord.unsigned64.Holds total) :
    Leads (undo image total) n (fun _ m => Steps .onTerms n m) fun _ m => Steps .onTerms n m := by
  have hcount : NightlyBackup.Within .onTerms (if image.level = 0 then
      modify (recountFull image.mediaSize) else pure () : Planning Unit) :=
    .ite (within_count fun _ => .checked rfl) (.pure ())
  have hrest : NightlyBackup.Within .onTerms (do
      Planning.setPlan image.record fun p => { p with dump := some image.slot }
      if image.deleted then Planning.insertScheduled image.record
      else Planning.resortScheduled image.record
      if image.level = 0 then modify (recountFull image.mediaSize)) :=
    (within_setPlan fun _ => rfl).bind fun _ => .ite (within_insertScheduled.bind fun _ => hcount)
      (within_resortScheduled.bind fun _ => hcount)
  have hsize : Steps .onTerms n (n.withTotals { n.totals with size := total }) :=
    .single (.counted ⟨id, fun h ht => ⟨htotal h, ht.fullSize⟩⟩)
  rw [undo, leads_bind, leads_modify]
  exact (hrest _).mono (fun _ _ hm => hsize.trans hm) fun _ _ hm => hsize.trans hm

theorem within_undoIfFits (image : BeforeImage) :
    NightlyBackup.Within .onTerms (undoIfFits image) := by
  have htry : ∀ {n m : Night} {current total : Nat}, sizeIfUndone n image current = some total →
      Leads (do
        Planning.reckon (sizesOverflow? [sizeWithImage n image])
        if total ≤ n.media.capacity ∧
            image.mediaSize ≤ n.media.ceiling (n.plan image.record).disk
        then do undo image total; pure true
        else pure false) m (fun _ k => Steps .onTerms m k) fun _ k => Steps .onTerms m k := by
    intro n m current total htotal
    have hreckoned : Steps .onTerms m (m.reckon (sizesOverflow? [sizeWithImage n image])) :=
      .single (.counted (Totals.Reckons.refl.reckon _).follows)
    rw [leads_bind, leads_reckon]
    split
    · rw [leads_bind]
      refine (steps_undo fun h => ?_).mono (fun _ _ hk => hreckoned.trans hk)
        fun _ _ hk => hreckoned.trans hk
      have hholds : IntWord.unsigned64.Holds (sizeWithImage n image) := by
        simpa using (Totals.overflow_reckon h).2
      exact IntWord.holds_of_le hholds (sizeIfUndone_le htotal)
    · exact hreckoned
  refine .getThen fun n => .ite (within_dumpMediaSize.bind fun current m => ?_)
    ((NightlyBackup.Within.pure 0).bind fun current m => ?_)
  all_goals
    beta_reduce
    split
    · rename_i total htotal
      exact htry htotal
    · exact .refl

theorem within_reinstateFrom (kept older : List BeforeImage) :
    Within .onTerms (reinstateFrom kept older) := by
  induction older generalizing kept with
  | nil => exact .pure kept
  | cons image older ih =>
    refine (Within.log _).bind fun _ => (Within.lift (within_undoIfFits image)).bind fun _ => ?_
    exact .ite (ih _) (ih _)

theorem within_settle (image : BeforeImage) : NightlyBackup.Within .onTerms (settle image) :=
  .getThen fun _ => (within_say rfl).bind fun _ => .ite (within_onQueues _) (.pure ())

end Delaying

namespace Planning

theorem within_withLog {α : Type} {act : Delaying α} (h : Delaying.Within .onTerms act) :
    Within .onTerms (withLog act) := by
  intro n
  rcases (h { night := n }).outcome with ⟨a, s, hact, hs⟩ | ⟨fault, s, hact, hs⟩
  · simpa only [Leads, withLog, hact] using hs
  · simpa only [Leads, withLog, hact] using hs

theorem within_fit : Within .onTerms fit := by
  refine .getThen fun n => ?_
  refine (within_withLog ?_).bind fun kept => ?_
  · refine Delaying.within_delayDumps.bind fun _ => ?_
    exact Delaying.Within.get.bind fun s => Delaying.within_reinstateFrom [] s.log
  · refine Within.bind (.forM fun image _ => Delaying.within_settle image) fun _ => ?_
    refine .getThen fun m => ?_
    have hrest : Within .onTerms (if m.totals.size > m.media.capacity then
        throw (.unfittable (.tooBig m.totals.size m.media.capacity))
        else pure () : Planning Unit) :=
      .ite (.throw _) (.pure ())
    exact .ite ((Within.throw _).bind fun _ => hrest) hrest

/-! ## Balance -/

theorem within_fullCandidate : Within .onTerms (fullCandidate id) := by
  refine within_getPlan.bind fun p => .ite (.pure none) ?_
  split
  · exact .pure none
  · exact within_mediaSize?.bind fun _ => .pure _

theorem follows_countPromoted {full current : Nat} (n : Night) :
    n.totals.Follows (countPromoted full current n).totals := by
  refine .reckon rfl fun h _ => ?_
  obtain ⟨hsize, hfull⟩ := by simpa [sizesWith] using h
  exact ⟨IntWord.holds_of_le hsize (Nat.sub_le ..), hfull⟩

theorem within_promote (special : Bool) : Within .onTerms (promote id slot special) := by
  refine within_getPlan.bind fun p => within_dumpMediaSize.bind fun current => ?_
  refine within_mediaSize?.bind fun full => ?_
  refine Within.bind (within_count follows_countPromoted) fun _ => ?_
  refine (within_setPlan fun _ => rfl).bind fun _ => within_resortScheduled.bind fun _ => ?_
  exact .getThen fun n => within_say rfl

theorem within_consider (best : Option (Nat × Nat)) : Within .onTerms (consider best id) := by
  refine (within_setPlan fun _ => rfl).bind fun _ => within_fullCandidate.bind fun found => ?_
  split
  · exact .pure best
  · refine within_getPlan.bind fun p => .ite (.pure best) ?_
    refine within_dumpMediaSize.bind fun current => .getThen fun n =>
      (within_reckon _).bind fun _ => ?_
    split
    · exact .pure best
    · refine (within_setPlan fun _ => rfl).bind fun _ => ?_
      split
      · exact .pure _
      · exact .ite (.pure _) (.pure _)

theorem within_promoteBest : Within .onTerms promoteBest := by
  refine .getThen fun n => (Within.foldlM (fun _ _ => within_consider _) _ _).bind fun found => ?_
  split
  · exact .pure false
  · exact (within_promote false).bind fun _ => .pure true

theorem within_promoteWhileWanted (rounds : Nat) :
    Within .onTerms (promoteWhileWanted rounds) := by
  induction rounds with
  | zero => exact .pure ()
  | succ rounds ih =>
    refine .getThen fun n => .ite (within_promoteBest.bind fun _ => ?_) (.pure ())
    exact .ite ih (.pure ())

theorem within_findOnHill (day : Nat) (ids : List Nat) : Within .onTerms (findOnHill day ids) := by
  induction ids with
  | nil => exact .pure none
  | cons id rest ih =>
    refine within_getPlan.bind fun p => .ite ih (within_fullCandidate.bind fun found => ?_)
    split
    · exact ih
    · exact within_dumpMediaSize.bind fun current => .getThen fun n =>
        (within_reckon _).bind fun _ => .ite ih (.pure _)

theorem within_breakUp (hills : List Hill) : Within .onTerms (breakUp hills) := by
  induction hills with
  | nil => exact .pure false
  | cons hill rest ih =>
    refine .getThen fun n => (within_findOnHill _ _).bind fun found => ?_
    split
    · exact (within_promote true).bind fun _ => .pure true
    · exact ih

theorem within_balance : Within .onTerms balance := by
  refine .getThen fun n => (within_promoteWhileWanted _).bind fun _ => ?_
  refine Within.bind ?_ fun _ => .pure ()
  exact .getThen fun n => .ite (.pure false) ((within_reckon _).bind fun _ => within_breakUp _)

theorem within_withinWords {may : Scope} {phase : Planning Unit} (h : Within may phase) :
    Within may (withinWords phase) := by
  intro n
  rcases (h n).outcome with ⟨_, m, hphase, hm⟩ | ⟨fault, m, hphase, hm⟩
  · simp only [Leads, withinWords, hphase]
    cases m.totals.overflow with
    | none => exact hm
    | some what => exact hm
  · simpa only [Leads, withinWords, hphase] using hm

/-- The phases that make the schedule keep the terms of every disk. -/
theorem within_schedule : Within .onTerms schedule :=
  (within_withinWords within_analyzeAll).bind fun _ =>
    (within_withinWords within_fit).bind fun _ => within_withinWords within_balance

end Planning

/-! ## From phase to phase -/

/-- The night `k` is planned from `n`, over `m`, which is prepared, and `g`, when all sizes are
gathered. -/
structure Phases (store : Store) (act : Planning Unit) (n m g k : Night) : Prop where
  prepares : prepareAll store n = .ok () m
  gathers : act m = .ok () g
  schedules : schedule g = .ok () k
  overflow : k.totals.overflow = none
  setUp : SetUp n m
  closing : Closing [] m g
  gathered : Sorted .estimated g
  sorted : Sorted .scheduled k
  orderly : k.Orderly
  same : n.SameDisks k
  terms : Steps .onTerms m g ∧ Steps .onTerms g k

theorem exists_phases {settings : Settings} {rotation : Rotation} {today : Int} {store : Store}
    {act : Planning Unit} (hbegin : Night.begin settings disks rotation today = .ok n)
    (hgathering : Gathering act) (hplan : planWith store act n = .ok () k) :
    ∃ m g, Phases store act n m g k := by
  obtain ⟨_, m, hprepare, hplan⟩ := ok_of_bind hplan
  obtain ⟨_, g, hgather, hschedule⟩ := ok_of_bind hplan
  replace hprepare := (withinWords_eq_ok.mp hprepare).1
  replace hgather := (withinWords_eq_ok.mp hgather).1
  obtain ⟨hsetUp, hhosted, hc⟩ := conversing_of_prepared hbegin hprepare
  obtain ⟨hclosing, -⟩ := (hgathering.leads hhosted hc).reached hgather
  have hgathered : Sorted .estimated g := .gathered hsetUp hclosing
  obtain ⟨hsorted, horderly, hgk⟩ := (leads_schedule hgathered).ok hschedule
  exact ⟨m, g, hprepare, hgather, hschedule, overflow_of_schedule hschedule, hsetUp, hclosing,
    hgathered, hsorted, horderly, hsetUp.same.trans (hclosing.same.trans hgk),
    (hgathering.steps hhosted hc).reached hgather, (within_schedule g).ok hschedule⟩

/-- The records of a planned night are the disks that take part, in their order. -/
theorem Phases.disk {settings : Settings} {rotation : Rotation} {today : Int} {store : Store}
    {act : Planning Unit} {m g : Night} (h : Phases store act n m g k)
    (hbegin : Night.begin settings disks rotation today = .ok n) (hid : id ∈ k.scheduled) :
    id < n.plans.length ∧ (disks.filter (·.todo))[id]? = some (n.plan id).disk ∧
      n.hostName id = (n.plan id).disk.host := by
  have hlt : id < n.plans.length := by
    rw [← h.same.length]
    exact h.sorted.sound.lt_of_place (h.sorted.sound.mem_scheduled.mp hid)
  have hd : (disks.filter (·.todo))[id]? = some (n.plan id).disk := by
    rw [← disks_of_begin hbegin, List.getElem?_map, List.getElem?_eq_getElem hlt]
    simp [plan, List.getD_eq_getElem?_getD, List.getElem?_eq_getElem hlt]
  refine ⟨hlt, hd, ?_⟩
  have htitle := congrArg (fun titles => titles[id]?) (fresh_of_begin hbegin).titles
  simp only [records, List.getElem?_map, List.getElem?_range hlt, hd] at htitle
  exact (Prod.mk.inj (Option.some.inj htitle)).1

/-- A record on the schedule has had a dump chosen for it. -/
theorem Phases.chosen {store : Store} {act : Planning Unit} {m g : Night}
    (h : Phases store act n m g k) (hid : id ∈ k.scheduled) :
    (g.plan id).choose.dump.isSome := by
  have he : g.scheduled = [] := h.gathered.empty .scheduled (by decide) (by decide)
  have hleads : Leads schedule g
      (fun _ k => k.place id = some .scheduled → (g.plan id).choose.dump.isSome) anyhow := by
    simp only [schedule, leads_bind]
    refine (leads_withinWords (leads_analyzeAll h.gathered.sound he : Leads _ _ _ never)).mono ?_
      fun _ _ _ => trivial
    rintro _ a ⟨-, ha⟩
    refine (leads_withinWords (leads_fit ha.orderly)).mono ?_ fun _ _ _ => trivial
    rintro _ f ⟨-, s, hf, -⟩
    refine (leads_withinWords
      (leads_balance (hf.orderly ha.orderly) : Leads _ _ _ never)).mono ?_ fun _ _ _ => trivial
    rintro _ k ⟨-, hk⟩ hp
    have hfitted : f.place id = some .scheduled :=
      ((hk.balanced (hf.orderly ha.orderly)).place id).symm.trans hp
    -- neither fitting nor analysis puts a record on the schedule that was elsewhere before
    have hdrawn : a.place id = some .scheduled := Classical.byContradiction fun hne =>
      hne ((hf.others ha.orderly hne).1.symm.trans hfitted)
    have hestimated : g.place id = some .estimated := Classical.byContradiction fun hne => by
      have hg := (ha.others hne).1.symm.trans hdrawn
      have hmem := h.gathered.sound.mem_scheduled.mpr hg
      rw [he] at hmem
      cases hmem
    rcases ha.each hestimated with ⟨hdump, -⟩ | ⟨-, hq, -⟩
    · exact hdump
    · cases hdrawn.symm.trans hq
  exact hleads.ok h.schedules (h.sorted.sound.mem_scheduled.mp hid)

end NightlyBackup
