import NightlyBackup.Night.Prepare
import NightlyBackup.Proofs.Choosing
import NightlyBackup.Proofs.Revising

/-!
What is asked about a disk, and which answers are of use. Preparation asks for levels that go
with the last level of the disk, and these are the levels at which a dump is looked for later.
The exception is a directive to make a dump at level 1: level 1 is then asked for alone, and
after a dump at a higher level, or after none at all, nobody looks at its size.
-/

namespace NightlyBackup

structure Question where
  host : Nat
  disk : Disk
  lastLevel : Option Nat
  nextFull : Int
  directives : Directives
  /-- The levels that are asked for. -/
  levels : List Nat

def DiskPlan.question (p : DiskPlan) : Question where
  host := p.host
  disk := p.disk
  lastLevel := p.lastLevel
  nextFull := p.nextFull
  directives := p.directives
  levels := p.levels.map (·.level)

namespace Question

/-- What preparation asks about a disk: level 1 alone, a full dump of a new disk, or levels that
go with the last level. -/
inductive Asked (q : Question) : Prop
  | level1 (levels : q.levels = [1])
  | new (last : q.lastLevel = none) (levels : ∀ w ∈ q.levels, w = 0)
  | after (l : Nat) (last : q.lastLevel = some l)
    (levels : ∀ w ∈ q.levels, w = 0 ∨ w = l ∨ w = l + 1)
    (noFull : q.disk.strategy = .noFull → 0 < q.nextFull)

/-- Level 1 is asked for alone, and is not looked at later. -/
def Overlooked (q : Question) : Prop :=
  q.levels = [1] ∧ (q.lastLevel = none ∨
    ((∃ l, q.lastLevel = some l ∧ 2 ≤ l) ∧ q.disk.strategy ≠ .noFull))

end Question

/-! ## Levels at which a dump is found -/

namespace DiskPlan

variable {p : DiskPlan} {level l : Nat}

theorem sizedSlot?_isSome : (p.sizedSlot? level).isSome ↔
    ∃ e ∈ p.levels, e.level = level ∧ e.size.kb?.isSome := by
  simp [sizedSlot?]

theorem mem_levels_of_sized (h : (p.sizedSlot? level).isSome) : level ∈ p.question.levels := by
  obtain ⟨e, he, rfl, -⟩ := sizedSlot?_isSome.mp h
  exact List.mem_map_of_mem he

theorem sizedSlot?_eq_none (h : level ∉ p.question.levels) : p.sizedSlot? level = none :=
  Option.not_isSome_iff_eq_none.mp fun hs => h (mem_levels_of_sized hs)

theorem exists_sized (h : p.hasPositiveSize) : ∃ level, (p.sizedSlot? level).isSome := by
  obtain ⟨e, he, hsize⟩ := List.any_eq_true.mp h
  refine ⟨e.level, sizedSlot?_isSome.mpr ⟨e, he, rfl, ?_⟩⟩
  split at hsize
  · rename_i kb hkb
    rw [hkb]
    rfl
  · cases hsize

def baseLevel (p : DiskPlan) (last : Nat) : Nat :=
  if last = 0 ∨ p.disk.strategy = .noFull then 1 else last

theorem slot?_pickRaised (p : DiskPlan) (last base : Nat) :
    (p.pickRaised last base).slot?.isSome := by
  simp only [pickRaised]
  split
  · rfl
  · split
    · rfl
    · split <;> rfl

theorem slot?_pickIncremental (hl : p.lastLevel = some l)
    (hs : (p.sizedSlot? (p.baseLevel l)).isSome) : p.pickIncremental.slot?.isSome := by
  obtain ⟨slot, hslot⟩ := Option.isSome_iff_exists.mp hs
  simp only [pickIncremental, hl]
  unfold baseLevel at hslot
  split
  · rename_i hbase
    rw [if_pos hbase] at hslot
    simp only [pickAt, hslot]
    rfl
  · rename_i hbase
    rw [if_neg hbase] at hslot
    rw [hslot]
    exact p.slot?_pickRaised l slot

theorem resolve_of_slot? {pick : Pick} (h : pick.slot?.isSome) : (p.resolve pick).isSome := by
  cases pick with
  | usable slot => rfl
  | raised slot level => rfl
  | unmeasured level => cases h
  | missing => cases h

/-- If no size is known at the level where an incremental is looked for first, the next level
is as good. -/
theorem resolve_next (hl : p.lastLevel = some l)
    (hs : (p.sizedSlot? (p.baseLevel l + 1)).isSome) :
    (p.resolve p.pickIncremental).isSome := by
  by_cases hbase : (p.sizedSlot? (p.baseLevel l)).isSome
  · exact resolve_of_slot? (slot?_pickIncremental hl hbase)
  · have hnone := Option.not_isSome_iff_eq_none.mp hbase
    simp only [pickIncremental, hl]
    unfold baseLevel at hnone hs
    split
    · rename_i h
      rw [if_pos h] at hnone hs
      simpa only [pickAt, hnone, resolve] using hs
    · rename_i h
      rw [if_neg h] at hnone hs
      simp only [hnone]
      cases p.positiveSlot? (l + 1) with
      | some slot => rfl
      | none => exact hs

theorem chooseFirst_isSome {places : List (Option Nat)} (place : Option Nat)
    (hm : place ∈ places) (hp : place.isSome) : (chooseFirst places).isSome := by
  induction places with
  | nil => cases hm
  | cons first places ih =>
    cases first with
    | some slot => rfl
    | none =>
      rcases List.mem_cons.mp hm with rfl | hm
      · cases hp
      · exact ih hm

/-- Where a dump is looked for: for a full dump that is due, or else among the places that are
of use tonight. -/
theorem choose_isSome_of_due (hd : p.isDue = true) :
    p.choose.dump.isSome ↔ (p.sizedSlot? 0).isSome ∨ (p.resolve p.pickIncremental).isSome := by
  simp only [choose, hd, if_true]
  split
  · rename_i full hfull
    have hdump : (p.chooseFallback full).dump = some full := by
      unfold chooseFallback
      split <;> rfl
    simp [hdump, hfull]
  · rename_i hfull
    simp [hfull]

theorem choose_isSome_of_full (hs : (p.sizedSlot? 0).isSome) : p.choose.dump.isSome := by
  by_cases hd : p.isDue = true
  · exact (choose_isSome_of_due hd).mpr (Or.inl hs)
  · simp only [choose, hd]
    exact chooseFirst_isSome (p.sizedSlot? 0) (by simp) hs

theorem choose_isSome_of_base (hl : p.lastLevel = some l)
    (hs : (p.sizedSlot? (p.baseLevel l)).isSome) : p.choose.dump.isSome := by
  have hpick := slot?_pickIncremental hl hs
  by_cases hd : p.isDue = true
  · exact (choose_isSome_of_due hd).mpr (Or.inr (resolve_of_slot? hpick))
  · simp only [choose, hd]
    exact chooseFirst_isSome p.pickIncremental.slot? (by simp) hpick

/-- Where no full dump is due, a size at the last level or at the next one is of use. -/
theorem choose_isSome_of_last (hd : ¬p.isDue = true) (hl : p.lastLevel = some l)
    (hs : (p.sizedSlot? level).isSome) (hlevel : level = l ∨ level = l + 1) :
    p.choose.dump.isSome := by
  simp only [choose, hd, hl]
  rcases hlevel with rfl | rfl
  · exact chooseFirst_isSome (p.sizedSlot? level) (by simp) hs
  · exact chooseFirst_isSome (p.sizedSlot? (l + 1)) (by simp) hs

theorem isDue_of_noFull (hf : 0 < p.nextFull) (hl : p.lastLevel = some l) (h : l ≠ 0) :
    ¬p.isDue = true := by
  simp only [isDue, hl, Bool.or_eq_true, Bool.and_eq_true, decide_eq_true_eq, Option.some.injEq]
  omega

/-- A dump is found at every level that goes with the last level. -/
theorem choose_isSome_after (hl : p.lastLevel = some l)
    (hf : p.disk.strategy = .noFull → 0 < p.nextFull) (hs : (p.sizedSlot? level).isSome)
    (hlevel : level = l ∨ level = l + 1) : p.choose.dump.isSome := by
  by_cases hd : p.isDue = true
  · by_cases h0 : l = 0
    · subst h0
      have hbase : p.baseLevel 0 = 1 := if_pos (Or.inl rfl)
      rcases hlevel with rfl | rfl
      · exact choose_isSome_of_full hs
      · exact choose_isSome_of_base hl (hbase ▸ hs)
    · have hbase : p.baseLevel l = l :=
        if_neg fun h => isDue_of_noFull (hf (h.resolve_left h0)) hl h0 hd
      rcases hlevel with rfl | rfl
      · exact choose_isSome_of_base hl (hbase.symm ▸ hs)
      · exact (choose_isSome_of_due hd).mpr (Or.inr (resolve_next hl (hbase.symm ▸ hs)))
  · exact choose_isSome_of_last hd hl hs hlevel

/-- **Usable sizes.** A dump is found for every disk that has a size, unless the size is at an
overlooked level. -/
theorem choose_isSome (ha : p.question.Asked) (hs : p.hasPositiveSize)
    (ho : ¬p.question.Overlooked) : p.choose.dump.isSome := by
  obtain ⟨level, hlevel⟩ := exists_sized hs
  have hasked := mem_levels_of_sized hlevel
  cases ha with
  | level1 levels =>
    obtain rfl : level = 1 := by simpa [levels] using hasked
    have hlast : ∃ l, p.lastLevel = some l :=
      Option.ne_none_iff_exists'.mp fun hn => ho ⟨levels, Or.inl hn⟩
    obtain ⟨l, hl⟩ := hlast
    have hbase : p.baseLevel l = 1 := by
      unfold baseLevel
      split
      · rfl
      · rename_i h
        refine Classical.byContradiction fun h1 => ho ⟨levels, Or.inr ⟨⟨l, hl, ?_⟩, ?_⟩⟩
        · omega
        · exact fun e => h (Or.inr e)
    exact choose_isSome_of_base hl (hbase ▸ hlevel)
  | new last levels =>
    obtain rfl := levels level hasked
    exact choose_isSome_of_full hlevel
  | after l last levels noFull =>
    rcases levels level hasked with rfl | h
    · exact choose_isSome_of_full hlevel
    · exact choose_isSome_after last noFull hlevel h

/-- No dump is found for a disk about which only an overlooked level was asked. -/
theorem choose_eq_none (ho : p.question.Overlooked) : p.choose.dump = none := by
  obtain ⟨hlevels, hwhy⟩ := ho
  have hnone : ∀ level, level ≠ 1 → p.sizedSlot? level = none := by
    intro level h
    exact sizedSlot?_eq_none (by simp [hlevels, h])
  rcases hwhy with hl | ⟨⟨l, hl, h2⟩, hstrategy⟩
  · have hl : p.lastLevel = none := hl
    have hpick : p.pickIncremental = .missing := by
      simp [pickIncremental, hl, positiveSlot?, hnone]
    unfold choose
    split
    · simp [hnone, hpick, resolve]
    · simp [hnone, hpick, hl, chooseFirst, Pick.slot?]
  · have hl : p.lastLevel = some l := hl
    have hstrategy : p.disk.strategy ≠ .noFull := hstrategy
    have hs : p.sizedSlot? l = none := hnone l (by omega)
    have hs' : p.sizedSlot? (l + 1) = none := hnone (l + 1) (by omega)
    have hpick : p.pickIncremental = .unmeasured l := by
      simp [pickIncremental, hl, positiveSlot?, hs, hs', hstrategy, show l ≠ 0 by omega]
    unfold choose
    split
    · simp [hnone, hpick, resolve, hs']
    · simp [hnone, hpick, hl, chooseFirst, Pick.slot?, hs, hs']

end DiskPlan

/-! ## Levels that preparation asks for -/

namespace Outlook

variable {d : Disk} {o : Outlook}

/-- An outlook for the disk `d` before levels are asked for. A strategy without full dumps
never has one due. -/
structure Fits (d : Disk) (o : Outlook) : Prop where
  disk : o.disk = d
  ahead : d.strategy.skipsFulls → 0 < o.nextFull
  wanted : o.wanted = []

theorem fits_ofHistory (d : Disk) (h : History) (r : Rotation) (reserve : Nat) (today : Int) :
    Fits d (ofHistory d h r reserve today) := by
  refine ⟨rfl, fun hs => ?_, rfl⟩
  simp only [ofHistory, History.daysToFull]
  cases e : d.strategy <;> simp_all [Strategy.skipsFulls]

theorem Fits.revision {o' : Outlook} (hr : Revision o o') (ho : Fits d o) : Fits d o' := by
  cases hr with
  | due _ takesFulls =>
    rw [ho.disk] at takesFulls
    exact ⟨ho.disk, fun hskips => absurd hskips (by simp [takesFulls]), ho.wanted⟩
  | _ => exact ⟨ho.disk, ho.ahead, ho.wanted⟩

theorem Fits.revised {o' : Outlook} (ho : Fits d o) (h : Revised o o') : Fits d o' :=
  h.keeps .revision ho

structure Adds (levels : Nat → Prop) (o o' : Outlook) : Prop where
  disk : o'.disk = o.disk
  lastLevel : o'.lastLevel = o.lastLevel
  nextFull : o'.nextFull = o.nextFull
  wanted : ∀ w ∈ o'.wanted, w ∈ o.wanted ∨ levels w

namespace Adds

variable {levels : Nat → Prop} {o o' : Outlook}

theorem refl (o : Outlook) : Adds levels o o := ⟨rfl, rfl, rfl, fun _ => Or.inl⟩

theorem want (h : Adds levels o o') {level : Nat} (hl : levels level) :
    Adds levels o (o'.want level) := by
  refine ⟨h.disk, h.lastLevel, h.nextFull, fun w hw => ?_⟩
  rcases List.mem_append.mp hw with hw | hw
  · exact h.wanted w hw
  · exact Or.inr (List.mem_singleton.mp hw ▸ hl)

theorem tell (h : Adds levels o o') (message : String) : Adds levels o (o'.tell message) :=
  ⟨h.disk, h.lastLevel, h.nextFull, h.wanted⟩

/-- Why there is no fallback does not matter. -/
theorem withReason (h : Adds levels o o') (reason : Option String) :
    Adds levels o { o' with degradedReason := reason } :=
  ⟨h.disk, h.lastLevel, h.nextFull, h.wanted⟩

theorem reckon (h : Adds levels o o') (what : Option Overflow) : Adds levels o (o'.reckon what) :=
  ⟨h.disk, h.lastLevel, h.nextFull, h.wanted⟩

theorem trans {o'' : Outlook} (h : Adds levels o o') (h' : Adds levels o' o'') :
    Adds levels o o'' :=
  ⟨h'.disk.trans h.disk, h'.lastLevel.trans h.lastLevel, h'.nextFull.trans h.nextFull,
    fun w hw => (h'.wanted w hw).elim (h.wanted w) Or.inr⟩

theorem mono {more : Nat → Prop} (h : Adds levels o o') (hsub : ∀ w, levels w → more w) :
    Adds more o o' :=
  ⟨h.disk, h.lastLevel, h.nextFull, fun w hw => (h.wanted w hw).imp_right (hsub w)⟩

end Adds

inductive Announced (o : Outlook) : Outlook → Prop
  | silent : Announced o o
  | told (message : String) : Announced o (o.tell message)

/-- The full dump is asked for, and there may be a reason against a fallback, unless the strategy
does without full dumps. -/
@[elab_as_elim]
theorem wantFull_cases {P : Outlook → Prop} (o : Outlook)
    (skips : o.disk.strategy.skipsFulls → ∀ {told}, Announced o told → P told)
    (asks : ¬o.disk.strategy.skipsFulls → ∀ {told}, Announced o told → ∀ reason,
      P { told.want 0 with degradedReason := reason }) : P o.wantFull := by
  unfold wantFull
  dsimp only
  generalize htell : (if o.directives.forceBump && o.lastLevel.isNone then
      o.tell ("Remove force-bump command of " ++ o.title ++ " because it's a new disk.")
    else o) = told
  have htold : Announced o told := by
    rw [← htell]
    split
    · exact .told _
    · exact .silent
  have hdisk : told.disk = o.disk := by
    cases htold <;> rfl
  rw [hdisk]
  split
  · rename_i hskips
    exact skips hskips htold
  · rename_i hfulls
    split
    · exact asks hfulls htold _
    · split
      · exact asks hfulls htold _
      · exact asks hfulls htold _

theorem Announced.adds {told : Outlook} {levels : Nat → Prop} (h : Announced o told) :
    Adds levels o told := by
  cases h with
  | silent => exact .refl o
  | told message => exact (Adds.refl o).tell message

theorem Announced.wanted {told : Outlook} (h : Announced o told) : told.wanted = o.wanted := by
  cases h <;> rfl

theorem adds_wantFull (o : Outlook) : Adds (· = 0) o o.wantFull := by
  refine wantFull_cases o (fun _ _ ht => ht.adds) fun _ told ht reason => ?_
  have hwant : Adds (· = 0) o (told.want 0) := ht.adds.want rfl
  exact hwant.withReason reason

/-- Nothing is added where the strategy does without full dumps. -/
theorem wanted_wantFull (h : o.disk.strategy.skipsFulls) : o.wantFull.wanted = o.wanted := by
  refine wantFull_cases o (fun _ _ ht => ht.wanted) fun hfulls => ?_
  exact absurd h hfulls

/-- After a dump at level `last`, this level, the next one, both or nothing at all is asked for: the
level only if it is an incremental one, and the next one only within the limit. -/
@[elab_as_elim]
theorem wantAfter_cases {P : Outlook → Prop} (o : Outlook) (last runs : Nat)
    (told : ∀ {asked : Outlook} (reason : Option String) (message : String), P asked →
      P ({ asked with degradedReason := reason }.tell message))
    (nothing : last = 0 → P o) (same : 0 < last → P (o.want last))
    (next : last + 1 < levelLimit → P (o.want (last + 1)))
    (both : 0 < last → last + 1 < levelLimit → P ((o.want last).want (last + 1))) :
    P (o.wantAfter last runs) := by
  unfold wantAfter
  split
  · refine told _ _ ?_
    split
    · exact same ‹_›
    · exact nothing (Nat.eq_zero_of_not_pos ‹_›)
  · split
    · rename_i hbump
      exact told _ _ (next hbump.2)
    · split
      · rename_i h0
        subst h0
        exact next (by decide)
      · rename_i h0
        have hpos : 0 < last := Nat.pos_of_ne_zero h0
        dsimp only
        split
        · rename_i hbump
          exact both hpos hbump.2
        · exact same hpos

theorem adds_wantAfter (o : Outlook) (last runs : Nat) :
    Adds (fun w => (w = last ∨ w = last + 1 ∧ w < levelLimit) ∧ 0 < w) o
      (o.wantAfter last runs) := by
  have hsame : 0 < last → Adds (fun w => (w = last ∨ w = last + 1 ∧ w < levelLimit) ∧ 0 < w) o
      (o.want last) := fun hpos => (Adds.refl o).want ⟨Or.inl rfl, hpos⟩
  refine wantAfter_cases o last runs (fun reason message h => (h.withReason reason).tell message)
    (fun _ => .refl o) hsame (fun hlimit => ?_) fun hpos hlimit => ?_
  · exact (Adds.refl o).want ⟨Or.inr ⟨rfl, hlimit⟩, Nat.succ_pos last⟩
  · exact (hsame hpos).want ⟨Or.inr ⟨rfl, hlimit⟩, Nat.succ_pos last⟩

theorem reckonAbove_eq (o : Outlook) (last runs : Nat) :
    ∃ what, o.reckonAbove last runs = o.reckon what := by
  unfold reckonAbove
  split
  · exact ⟨_, rfl⟩
  · exact ⟨none, by simp [reckon]⟩

theorem adds_incrementals (o : Outlook) (last runs : Nat) :
    Adds (fun w => (w = last ∨ w = last + 1 ∧ w < levelLimit) ∧ 0 < w) o
      ((o.reckonAbove last runs).wantAfter last runs) := by
  obtain ⟨what, h⟩ := o.reckonAbove_eq last runs
  rw [h]
  exact ((Adds.refl o).reckon what).trans (adds_wantAfter _ last runs)

inductive Wants (o : Outlook) : Prop
  | level1 (wanted : o.wanted = [1])
  | new (last : o.lastLevel = none) (wanted : ∀ w ∈ o.wanted, w = 0)
  | after (l : Nat) (last : o.lastLevel = some l)
    (wanted : ∀ w ∈ o.wanted, w = 0 ∨ w = l ∨ w = l + 1)

structure Chosen (o o' : Outlook) : Prop where
  disk : o'.disk = o.disk
  nextFull : o'.nextFull = o.nextFull
  wants : o'.Wants

theorem Adds.chosen {levels : Nat → Prop} {o' : Outlook} (h : Adds levels o o') (hw : o'.Wants) :
    Chosen o o' := ⟨h.disk, h.nextFull, hw⟩

/-- Full dumps alone go with any last level. -/
theorem Adds.wants_full {o' : Outlook} (h : Adds (· = 0) o o') (hw : o.wanted = []) :
    o'.Wants := by
  have hall : ∀ w ∈ o'.wanted, w = 0 := fun w hm => (h.wanted w hm).resolve_left (by simp [hw])
  cases hl : o'.lastLevel with
  | none => exact .new hl hall
  | some l => exact .after l hl fun w hm => Or.inl (hall w hm)

theorem chosen_wantIncrementals {o' : Outlook} (h : Adds (· = 0) o o') (hw : o.wanted = [])
    (hskip : o'.disk.strategy.skipsFulls → o'.wanted = []) (runs : Nat) :
    Chosen o (o'.wantIncrementals runs) := by
  unfold wantIncrementals
  split
  · rename_i hl
    dsimp only
    split
    · rename_i hs
      refine ⟨h.disk, h.nextFull, .level1 ?_⟩
      show o'.wanted ++ [1] = [1]
      rw [hskip hs]
      rfl
    · exact (h.withReason _).chosen ((h.withReason _).wants_full hw)
  · rename_i l hl
    have ha := (h.mono fun w hw => Or.inl hw).trans
      ((adds_incrementals o' l runs).mono fun w hw => Or.inr (hw.1.imp_right And.left))
    refine ha.chosen (.after l ?_ fun w hm => ?_)
    · rw [(adds_incrementals o' l runs).lastLevel, hl]
    · exact (ha.wanted w hm).resolve_left (by simp [hw])

inductive AskedFull (o : Outlook) : Outlook → Prop
  | full (wants : o.wantsFull = true) : AskedFull o o.wantFull
  | nothing : AskedFull o o

theorem AskedFull.adds {asked : Outlook} (h : AskedFull o asked) : Adds (· = 0) o asked := by
  cases h with
  | full => exact adds_wantFull o
  | nothing => exact .refl o

theorem AskedFull.wanted {asked : Outlook} (h : AskedFull o asked)
    (hs : o.disk.strategy.skipsFulls) : asked.wanted = o.wanted := by
  cases h with
  | full => exact wanted_wantFull hs
  | nothing => rfl

/-- Level 1 is asked for alone as directed, or the full dump if it is wanted, with incrementals for
a disk that takes them. -/
@[elab_as_elim]
theorem chooseLevels_cases {P : Outlook → Prop} (o : Outlook) (runs : Nat)
    (level1 : o.directives.forceLevel1 = true → o.disk.strategy ≠ .noIncremental → ∀ reason,
      P { (o.tell ("Forcing level 1 of " ++ o.title ++ " as directed.")).want 1 with
        degradedReason := reason })
    (alone : ∀ {asked}, AskedFull o asked → P asked)
    (incrementals : ∀ {asked}, AskedFull o asked → o.disk.skipIncr = false →
      o.disk.strategy ≠ .noIncremental → P (asked.wantIncrementals runs)) :
    P (o.chooseLevels runs) := by
  unfold chooseLevels
  split
  · rename_i hforced
    exact level1 hforced.1 hforced.2 _
  · dsimp only
    generalize hasked : (if o.wantsFull then o.wantFull else o) = asked
    have hfull : AskedFull o asked := by
      rw [← hasked]
      split
      · exact .full ‹_›
      · exact .nothing
    rw [hfull.adds.disk]
    split
    · exact alone hfull
    · rename_i htakes
      simp only [Bool.or_eq_true, decide_eq_true_eq, not_or] at htakes
      exact incrementals hfull (by simpa using htakes.1) htakes.2

theorem chosen_chooseLevels (hw : o.wanted = []) (runs : Nat) :
    Chosen o (o.chooseLevels runs) := by
  refine chooseLevels_cases o runs (fun _ _ reason => ?_) (fun hfull => ?_) fun hfull _ _ => ?_
  · refine ⟨rfl, rfl, .level1 ?_⟩
    show o.wanted ++ [1] = [1]
    rw [hw]
    rfl
  · exact hfull.adds.chosen (hfull.adds.wants_full hw)
  · refine chosen_wantIncrementals hfull.adds hw (fun hs => ?_) runs
    rw [hfull.adds.disk] at hs
    rw [hfull.wanted hs, hw]

theorem mem_of_mem_dropRepeats {w : Nat} {levels : List Nat} (h : w ∈ dropRepeats levels) :
    w ∈ levels := by
  fun_induction dropRepeats levels with
  | case1 b rest ih => exact List.mem_cons_of_mem _ (ih h)
  | case2 a b rest hab ih =>
    rcases List.mem_cons.mp h with rfl | h
    · exact List.mem_cons_self ..
    · exact List.mem_cons_of_mem _ (ih h)
  | case3 levels hshort => exact h

/-- A verdict is given when the tapes have been looked at, when full dumps made elsewhere are
expected, or else by the levels that are chosen. -/
@[elab_as_elim]
theorem judge_cases {P : Outlook × Verdict → Prop} (o : Outlook) (s : Settings) (r : Rotation)
    (skipFull : P (o.watched s r, .leaveOut 0 "skip-full"))
    (noFull : P ((o.watched s r).expectFullElsewhere,
      .fail "Skipping incronly because no full dump were done"))
    (skipIncr : P ((o.watched s r).expectFullElsewhere, .leaveOut 1 "skip-incr"))
    (noLevel : ∀ runs, P ((o.considered s r).chooseLevels runs,
      .fail "no dump level can be estimated"))
    (levels : ∀ runs,
      (dropRepeats ((o.considered s r).chooseLevels runs).wanted).take maxLevels ≠ [] →
      P ((o.considered s r).chooseLevels runs,
        .ask ((dropRepeats ((o.considered s r).chooseLevels runs).wanted).take maxLevels))) :
    P (o.judge s r) := by
  unfold considered watched at *
  unfold judge
  generalize (((o.force s.dumpCycle).watchFull r).watchLevel1 r).reckonPriority = seen at *
  dsimp only
  split
  · exact skipFull
  · split
    · exact noFull
    · split
      · exact skipIncr
      · split
        · exact noLevel _
        · rename_i hsome
          exact levels _ (by simpa using hsome)

/-- A verdict that asks for sizes asks for those of the levels that were chosen. -/
theorem considered_of_judge {s : Settings} {r : Rotation} {o' : Outlook} {levels : List Nat}
    (hj : o.judge s r = (o', .ask levels)) : ∃ runs, o' = (o.considered s r).chooseLevels runs ∧
      levels = (dropRepeats o'.wanted).take maxLevels ∧ levels ≠ [] := by
  refine judge_cases (P := fun judged => judged = (o', .ask levels) → _) o s r nofun nofun nofun
    (fun _ => nofun) (fun runs hsome h => ?_) hj
  cases h
  exact ⟨runs, rfl, rfl, hsome⟩

/-- If sizes are asked for, they are those of the levels that were chosen. -/
theorem chosen_of_judge {s : Settings} {r : Rotation} {o' : Outlook} {levels : List Nat}
    (ho : Fits d o) (hj : o.judge s r = (o', .ask levels)) :
    ∃ trusted runs, Fits d trusted ∧ o' = trusted.chooseLevels runs ∧
      levels = (dropRepeats o'.wanted).take maxLevels := by
  obtain ⟨runs, hchosen, hlevels, -⟩ := considered_of_judge hj
  exact ⟨_, runs, ho.revised (revised_considered o s r), hchosen, hlevels⟩

/-- **Levels that are asked for.** They go with the last level, unless level 1 is asked for
alone. -/
theorem asked_of_judge {s : Settings} {r : Rotation} {o' : Outlook} {levels : List Nat}
    (ho : Fits d o) (hj : o.judge s r = (o', .ask levels)) {p : DiskPlan}
    (hp : p.disk.strategy = d.strategy) (runs : Nat) :
    (Planning.takeOutlook o' levels runs p).question.Asked := by
  obtain ⟨trusted, runs', ht, hchosen, rfl⟩ := chosen_of_judge ho hj
  have hc : Chosen trusted o' := hchosen ▸ chosen_chooseLevels ht.wanted runs'
  have hlevels : (Planning.takeOutlook o' ((dropRepeats o'.wanted).take maxLevels) runs
      p).question.levels = (dropRepeats o'.wanted).take maxLevels := by
    simp [Planning.takeOutlook, DiskPlan.question, Function.comp_def]
  have hmem : ∀ w ∈ (dropRepeats o'.wanted).take maxLevels, w ∈ o'.wanted :=
    fun w hm => mem_of_mem_dropRepeats (List.mem_of_mem_take hm)
  cases hc.wants with
  | level1 wanted =>
    refine .level1 ?_
    rw [hlevels, wanted]
    rfl
  | new last wanted =>
    refine .new last ?_
    rw [hlevels]
    exact fun w hm => wanted w (hmem w hm)
  | after l last wanted =>
    refine .after l last ?_ fun hstrategy => ?_
    · rw [hlevels]
      exact fun w hm => wanted w (hmem w hm)
    · have hd : d.strategy = .noFull := hp.symm.trans hstrategy
      show 0 < o'.nextFull
      rw [hc.nextFull]
      exact ht.ahead (by rw [hd]; rfl)

end Outlook

end NightlyBackup
