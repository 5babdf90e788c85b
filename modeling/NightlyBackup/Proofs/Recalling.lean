import NightlyBackup.History.Recall
import NightlyBackup.Night.Outlook

/-!
Which level the last dump was at, where that is not recorded. The dates tell: the level of the
newest dump, the lowest one if several are equally new, and no level if none has a date after 1970.
The search goes up to a limit; it finds the level of the newest dump below that limit, and so the
right one unless a level above the limit has a newer dump.
-/

namespace NightlyBackup

namespace History

variable {h : History} {limit wider level level' : Nat} {date date' : Int}
  {best : Option Nat × Int}

/-! ## The level of the newest dump -/

/-- No dump at a level below `limit` has a date after 1970. -/
def Undated (h : History) (limit : Nat) : Prop :=
  ∀ level < limit, ∀ date, h.levelDate? level = some date → date ≤ 0

/-- The level below `limit` of the newest dump: no date is later, and no lower level has the
same. -/
structure Newest (h : History) (limit level : Nat) (date : Int) : Prop where
  below : level < limit
  dated : h.levelDate? level = some date
  positive : 0 < date
  latest : ∀ other < limit, ∀ earlier, h.levelDate? other = some earlier → earlier ≤ date
  lowest : ∀ other < level, h.levelDate? other ≠ some date

theorem Newest.unique (hn : h.Newest limit level date) (hn' : h.Newest limit level' date') :
    level = level' := by
  have hdate : date = date' := Int.le_antisymm
    (hn'.latest level hn.below date hn.dated) (hn.latest level' hn'.below date' hn'.dated)
  subst hdate
  rcases Nat.lt_trichotomy level level' with hlt | heq | hgt
  · exact absurd hn.dated (hn'.lowest level hlt)
  · exact heq
  · exact absurd hn'.dated (hn.lowest level' hgt)

theorem Newest.not_undated (hn : h.Newest limit level date) : ¬h.Undated limit :=
  fun hu => absurd hn.positive (Int.not_lt.mpr (hu level hn.below date hn.dated))

/-- The newest of all dumps is the newest of those below any level above its own. -/
theorem Newest.narrow (hn : h.Newest wider level date) (hle : limit ≤ wider)
    (hlt : level < limit) : h.Newest limit level date :=
  { hn with below := hlt, latest := fun other ho => hn.latest other (Nat.lt_of_lt_of_le ho hle) }

theorem Undated.narrow (hu : h.Undated wider) (hle : limit ≤ wider) : h.Undated limit :=
  fun other ho => hu other (Nat.lt_of_lt_of_le ho hle)

/-! ## The search -/

/-- The levels below `limit` have been searched: none is newer than the best, and the best is the
newest among them if there is one. -/
structure Searched (h : History) (limit : Nat) (best : Option Nat × Int) : Prop where
  latest : ∀ level < limit, ∀ date, h.levelDate? level = some date → date ≤ best.2
  found : match best.1 with
    | none => best.2 = 0
    | some level => h.Newest limit level best.2

theorem Searched.nonneg (hs : h.Searched limit best) : 0 ≤ best.2 := by
  have hfound := hs.found
  split at hfound
  · exact Int.le_of_eq hfound.symm
  · exact Int.le_of_lt hfound.positive

/-- A level whose dump is not newer leaves the best as it is. -/
theorem Searched.keep (hs : h.Searched limit best)
    (hold : ∀ date, h.levelDate? limit = some date → date ≤ best.2) :
    h.Searched (limit + 1) best := by
  have hlatest : ∀ level < limit + 1, ∀ date, h.levelDate? level = some date → date ≤ best.2 := by
    intro level hlevel
    rcases Nat.lt_succ_iff_lt_or_eq.mp hlevel with hlt | rfl
    · exact hs.latest level hlt
    · exact hold
  refine ⟨hlatest, ?_⟩
  have hfound := hs.found
  split at hfound
  · exact hfound
  · exact { hfound with below := Nat.lt_succ_of_lt hfound.below, latest := hlatest }

/-- A level with a newer dump is the best from then on. -/
theorem Searched.take (hs : h.Searched limit best) (hdate : h.levelDate? limit = some date)
    (hnew : best.2 < date) : h.Searched (limit + 1) (some limit, date) := by
  have hlatest : ∀ other < limit + 1, ∀ earlier, h.levelDate? other = some earlier →
      earlier ≤ date := by
    intro other hother earlier he
    rcases Nat.lt_succ_iff_lt_or_eq.mp hother with hlt | rfl
    · exact Int.le_trans (hs.latest other hlt earlier he) (Int.le_of_lt hnew)
    · exact Int.le_of_eq (Option.some.inj (he.symm.trans hdate))
  refine ⟨hlatest, Nat.lt_succ_self limit, hdate, Int.lt_of_le_of_lt hs.nonneg hnew, hlatest, ?_⟩
  intro other hother he
  exact absurd hnew (Int.not_lt.mpr (hs.latest other hother date he))

/-- What counts as lost is not newer than the best, which is no older than the last full dump. -/
theorem Searched.not_newer_of_lost (hs : h.Searched limit best) (hlost : h.isLost limit = true)
    (hdate : h.levelDate? limit = some date) : date ≤ best.2 := by
  simp only [isLost, hdate, Option.getD_some, Bool.and_eq_true, decide_eq_true_eq] at hlost
  obtain ⟨hpos, holder⟩ := hlost
  cases hfull : h.levelDate? 0 with
  | none =>
    simp only [hfull, Option.getD_none] at holder
    have hnonneg := hs.nonneg
    omega
  | some full =>
    simp only [hfull, Option.getD_some] at holder
    have hbest := hs.latest 0 hpos full hfull
    omega

theorem Searched.newer (hs : h.Searched limit best) :
    h.Searched (limit + 1) (h.newer best limit) := by
  unfold History.newer
  by_cases hlost : h.isLost limit = true
  · rw [if_pos hlost]
    exact hs.keep fun date hdate => hs.not_newer_of_lost hlost hdate
  · rw [if_neg hlost]
    cases hdate : h.levelDate? limit with
    | none =>
      have hnonneg := hs.nonneg
      rw [Option.getD_none, if_neg (by omega)]
      exact hs.keep fun date he => nomatch hdate.symm.trans he
    | some date =>
      rw [Option.getD_some]
      split
      · exact hs.take hdate ‹_›
      · refine hs.keep fun other he => ?_
        obtain rfl : date = other := Option.some.inj (hdate.symm.trans he)
        exact Int.not_lt.mp ‹_›

theorem searched_foldl (h : History) (limit : Nat) :
    h.Searched limit ((List.range limit).foldl h.newer (none, 0)) := by
  induction limit with
  | zero => exact ⟨fun level hlt => absurd hlt (Nat.not_lt_zero level), rfl⟩
  | succ limit ih =>
    rw [List.range_succ, List.foldl_append, List.foldl_cons, List.foldl_nil]
    exact ih.newer

theorem exists_newest_or_undated (h : History) (limit : Nat) :
    (∃ level date, h.Newest limit level date) ∨ h.Undated limit := by
  have hs := searched_foldl h limit
  have hfound := hs.found
  split at hfound
  · exact Or.inr fun level hlt date hdate => hfound ▸ hs.latest level hlt date hdate
  · exact Or.inl ⟨_, _, hfound⟩

/-! ## The last dump -/

variable {r : Rotation} {reserve : Nat}

theorem lastDumped_eq_some_iff (hlast : h.lastLevel = none) (hreserve : reserve < 100) :
    h.lastDumped r reserve = some level ↔ ∃ date, h.Newest searchedLevels level date := by
  have hs := searched_foldl h searchedLevels
  have hfound := hs.found
  simp only [lastDumped, hlast, if_pos hreserve]
  split at hfound
  · next hnone =>
    constructor
    · exact fun e => nomatch hnone.symm.trans e
    rintro ⟨date, hn⟩
    exact absurd hn.positive (Int.not_lt.mpr (hfound ▸ hs.latest level hn.below date hn.dated))
  · next found hsome =>
    rw [hsome]
    constructor
    · rintro ⟨⟩
      exact ⟨_, hfound⟩
    · rintro ⟨date, hn⟩
      exact congrArg some (hfound.unique hn)

theorem lastDumped_eq_none_iff (hlast : h.lastLevel = none) (hreserve : reserve < 100) :
    h.lastDumped r reserve = none ↔ h.Undated searchedLevels := by
  rw [Option.eq_none_iff_forall_ne_some]
  constructor
  · intro hnone
    refine (exists_newest_or_undated h searchedLevels).resolve_left fun ⟨level, date, hn⟩ => ?_
    exact hnone level ((lastDumped_eq_some_iff hlast hreserve).mpr ⟨date, hn⟩)
  · intro hu level hsome
    obtain ⟨date, hn⟩ := (lastDumped_eq_some_iff hlast hreserve).mp hsome
    exact hn.not_undated hu

/-- The search of all levels that a run may plan has the answers of the search of the first nine
exactly if the newest dump is at one of those. -/
theorem newest_below_iff :
    ((∀ level, (∃ date, h.Newest searchedLevels level date) ↔
        ∃ date, h.Newest levelLimit level date) ∧
      (h.Undated searchedLevels ↔ h.Undated levelLimit)) ↔
    ∀ level date, h.Newest levelLimit level date → level < searchedLevels := by
  have hle : searchedLevels ≤ levelLimit := by decide
  constructor
  · rintro ⟨hsame, -⟩ level date hn
    obtain ⟨date', hn'⟩ := (hsame level).mpr ⟨date, hn⟩
    exact hn'.below
  · intro hbelow
    have hnarrow : ∀ level date, h.Newest levelLimit level date →
        h.Newest searchedLevels level date :=
      fun level date hn => hn.narrow hle (hbelow level date hn)
    have hundated : h.Undated searchedLevels → h.Undated levelLimit := by
      intro hu
      refine (exists_newest_or_undated h levelLimit).resolve_left fun ⟨level, date, hn⟩ => ?_
      exact (hnarrow level date hn).not_undated hu
    refine ⟨fun level => ⟨?_, ?_⟩, hundated, fun hu => hu.narrow hle⟩
    · rintro ⟨date, hn⟩
      rcases exists_newest_or_undated h levelLimit with ⟨level', date', hn'⟩ | hu
      · obtain rfl : level = level' := hn.unique (hnarrow level' date' hn')
        exact ⟨date', hn'⟩
      · exact absurd (hu.narrow hle) hn.not_undated
    · rintro ⟨date, hn⟩
      exact ⟨date, hnarrow level date hn⟩

/-- **The last dump.** Where the level of the last dump is not recorded, it is looked for among the
first nine levels: it is the level of the newest dump among these, and there is none exactly if no
date among these is positive. This is the level of the newest dump at any level that a run may plan
exactly if that level is one of the nine. -/
theorem last_dump_is_newest (hlast : h.lastLevel = none) (hreserve : reserve < 100) :
    (∀ level, h.lastDumped r reserve = some level ↔
      ∃ date, h.Newest searchedLevels level date) ∧
    (h.lastDumped r reserve = none ↔ h.Undated searchedLevels) ∧
    (((∀ level, h.lastDumped r reserve = some level ↔ ∃ date, h.Newest levelLimit level date) ∧
        (h.lastDumped r reserve = none ↔ h.Undated levelLimit)) ↔
      ∀ level date, h.Newest levelLimit level date → level < searchedLevels) := by
  have hsome : ∀ level, h.lastDumped r reserve = some level ↔
      ∃ date, h.Newest searchedLevels level date :=
    fun level => lastDumped_eq_some_iff hlast hreserve
  have hnone := lastDumped_eq_none_iff (r := r) hlast hreserve
  refine ⟨hsome, hnone, ?_⟩
  simp only [hsome, hnone]
  exact newest_below_iff

/-! ## A low level and a high one -/

def ofDates (dates : List (Nat × Int)) : History where
  levels := dates.map fun (level, date) =>
    (level, { size := 0, mediaSize := 0, seconds := 0, date := some date, label := none })

theorem mem_of_levelDate? {dates : List (Nat × Int)}
    (hd : (ofDates dates).levelDate? level = some date) : (level, date) ∈ dates := by
  induction dates with
  | nil => cases hd
  | cons first dates ih =>
    by_cases hfirst : level = first.1
    · subst hfirst
      simp [levelDate?, level?, ofDates] at hd
      simp [← hd]
    · refine List.mem_cons_of_mem first (ih ?_)
      rw [← hd]
      simp [levelDate?, level?, ofDates, List.lookup_cons, beq_false_of_ne hfirst]

def steady : History := ofDates [(0, 1709600400), (1, 1710378000)]

theorem last_dump_of_steady : steady.lastLevel = none ∧ 50 < 100 ∧
    steady.lastDumped {} 50 = some 1 ∧ steady.Newest searchedLevels 1 1710378000 := by
  have hfound : steady.lastDumped {} 50 = some 1 := rfl
  obtain ⟨date, hn⟩ := ((last_dump_is_newest rfl (by decide)).1 1).mp hfound
  obtain rfl : 1710378000 = date := Option.some.inj hn.dated
  exact ⟨rfl, by decide, hfound, hn⟩

/-- A full dump, and a newer one at level 9. -/
def farthest : History := ofDates [(0, 1709600400), (9, 1710378000)]

/-- The newest dump is at level 9, and yet the full dump counts as the last one. -/
theorem newest_dump_overlooked : farthest.lastLevel = none ∧ 50 < 100 ∧
    farthest.Newest levelLimit 9 1710378000 ∧ farthest.lastDumped {} 50 = some 0 := by
  refine ⟨rfl, by decide, ⟨by decide, rfl, by decide, ?_, by decide⟩, rfl⟩
  intro other _ earlier he
  rcases List.mem_cons.mp (mem_of_levelDate? he) with heq | hmem
  · exact (Prod.mk.inj heq).2 ▸ by decide
  · exact Int.le_of_eq (Prod.mk.inj (List.mem_singleton.mp hmem)).2

end History

end NightlyBackup
