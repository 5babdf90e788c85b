import NightlyBackup.History.Expected

/-!
Sizes that are expected. Where the history has a dump at the level, or a recorded size that is
trusted, the expected size comes from there: it lies among the sizes of the dumps, or it is the
recorded size. Anything else is a guess, and a guess for an incremental is a tenth of what is
expected of the dump that it is compared with.
-/

namespace NightlyBackup

variable {level mean : Nat} {before : Option Nat} {sizes : List Nat} {dumps past : List PastDump}
  {d : PastDump}

/-! ## The mean -/

theorem mean?_eq_none_iff : mean? sizes = none ↔ sizes = [] := by
  simp [mean?]

theorem mean?_eq_some_iff :
    mean? sizes = some mean ↔ sizes ≠ [] ∧ totalSize sizes / sizes.length = mean := by
  cases sizes <;> simp [mean?]

/-- Some size is no larger than the mean, and some size is no smaller. -/
theorem exists_around_mean? (h : mean? sizes = some mean) :
    (∃ size ∈ sizes, size ≤ mean) ∧ ∃ size ∈ sizes, mean ≤ size := by
  obtain ⟨hne, rfl⟩ := mean?_eq_some_iff.mp h
  have hsum : totalSize sizes = sizes.sum := rfl
  rw [hsum]
  exact ⟨⟨sizes.min hne, List.min_mem hne, List.min_le_sum_div_length_nat hne⟩,
    sizes.max hne, List.max_mem hne, List.sum_div_length_le_max_nat hne⟩

/-! ## First days -/

theorem mem_of_mem_firstDays (h : d ∈ firstDays level before dumps) :
    d ∈ dumps ∧ d.level = level := by
  induction dumps generalizing before with
  | nil => cases h
  | cons first dumps ih =>
    have hrest : d ∈ firstDays level (some first.level) dumps →
        d ∈ first :: dumps ∧ d.level = level := fun hd =>
      ⟨List.mem_cons_of_mem _ (ih hd).1, (ih hd).2⟩
    unfold firstDays at h
    split at h
    · rename_i hfirst
      rcases List.mem_cons.mp h with rfl | h
      · exact ⟨List.mem_cons_self .., hfirst.1⟩
      · exact hrest h
    · exact hrest h

/-- The first dump of all at a level is one of its first days. -/
theorem firstDays_eq_nil (hbefore : before ≠ some level) (h : firstDays level before dumps = []) :
    ∀ d ∈ dumps, d.level ≠ level := by
  induction dumps generalizing before with
  | nil => simp
  | cons first dumps ih =>
    unfold firstDays at h
    split at h
    · cases h
    · rename_i hfirst
      have hother : first.level ≠ level := fun e => hfirst ⟨e, hbefore⟩
      exact List.forall_mem_cons.mpr ⟨hother, ih (fun e => hother (Option.some.inj e)) h⟩

namespace History

variable {h : History} {guess : Nat} {expected below : ExpectedSize}

/-! ## What an expected size rests on -/

def sizesAt (h : History) (level : Nat) : List Nat :=
  (h.dumps.filter (·.level = level)).map (·.size)

/-- A recorded size up to this one is not trusted. -/
def untrusted (level : Nat) : Nat := if level = 0 then 1000 else 0

theorem sizesAt_eq_nil_iff : h.sizesAt level = [] ↔ ∀ d ∈ h.dumps, d.level ≠ level := by
  simp [sizesAt]

theorem mem_sizesAt (hd : d ∈ h.dumps) (hlevel : d.level = level) : d.size ∈ h.sizesAt level :=
  List.mem_map_of_mem (List.mem_filter.mpr ⟨hd, decide_eq_true hlevel⟩)

/-- What an expected size rests on: dumps at the level, or else the recorded size, or else nothing;
then it is `guess`. -/
inductive RestsOn (h : History) (level guess : Nat) : ExpectedSize → Prop
  | dumps (size : Nat) (least : ∃ s ∈ h.sizesAt level, s ≤ size)
    (greatest : ∃ s ∈ h.sizesAt level, size ≤ s) : RestsOn h level guess ⟨size, false⟩
  | record (none : h.sizesAt level = []) (trusted : untrusted level < h.levelSize level) :
    RestsOn h level guess ⟨h.levelSize level, false⟩
  | nothing (none : h.sizesAt level = []) (small : h.levelSize level ≤ untrusted level) :
    RestsOn h level guess ⟨guess, true⟩

theorem expectedFull_restsOn (h : History) (tapeLength : Nat) :
    RestsOn h 0 (min newDiskGuess (tapeLength / 2)) (h.expectedFull tapeLength) := by
  unfold expectedFull
  split
  · rename_i d hlast
    have hlevel : d.level = 0 := by simpa using List.find?_some hlast
    have hsize := mem_sizesAt (List.mem_reverse.mp (List.mem_of_find?_eq_some hlast)) hlevel
    exact .dumps d.size ⟨_, hsize, Nat.le_refl _⟩ ⟨_, hsize, Nat.le_refl _⟩
  · rename_i hnone
    have hnone : h.sizesAt 0 = [] := sizesAt_eq_nil_iff.mpr fun d hd => by
      simpa using List.find?_eq_none.mp hnone d (List.mem_reverse.mpr hd)
    split
    · exact .record hnone ‹_›
    · exact .nothing hnone (Nat.not_lt.mp ‹_›)

/-- Past dumps at the level are as good as all of them, if there are some where there are any. -/
theorem expectedFrom_restsOn (past : List PastDump) (below : ExpectedSize) (hlevel : level ≠ 0)
    (hpast : ∀ d ∈ past, d ∈ h.dumps ∧ d.level = level)
    (hany : past = [] → ∀ d ∈ h.dumps, d.level ≠ level) :
    RestsOn h level (below.size / 10) (h.expectedFrom level past below) := by
  have huntrusted : untrusted level = 0 := if_neg hlevel
  have hmem : ∀ s ∈ past.map (·.size), s ∈ h.sizesAt level :=
    List.forall_mem_map.mpr fun d hd => mem_sizesAt (hpast d hd).1 (hpast d hd).2
  unfold expectedFrom
  split
  · rename_i size hmean
    obtain ⟨⟨least, hleast, hle⟩, ⟨greatest, hgreatest, hge⟩⟩ := exists_around_mean? hmean
    exact .dumps size ⟨least, hmem _ hleast, hle⟩ ⟨greatest, hmem _ hgreatest, hge⟩
  · rename_i hmean
    have hnone : h.sizesAt level = [] :=
      sizesAt_eq_nil_iff.mpr (hany (List.map_eq_nil_iff.mp (mean?_eq_none_iff.mp hmean)))
    split
    · exact .record hnone (by rwa [huntrusted])
    · exact .nothing hnone (by rw [huntrusted]; omega)

def guessedSize (h : History) (level : Nat) (lastLevel : Option Nat) (tapeLength : Nat) : Nat :=
  if level = 0 then min newDiskGuess (tapeLength / 2)
  else if lastLevel = some level then (h.expectedSize 0 lastLevel tapeLength).size / 10
  else (h.expectedSize (level - 1) (some (level - 1)) tapeLength).size / 10

/-- Whichever past sizes are looked at, an expected size rests on the dumps at its level if there
are any, and else on its record if that is trusted. -/
theorem expectedSize_restsOn (h : History) (level : Nat) (lastLevel : Option Nat)
    (tapeLength : Nat) : RestsOn h level (h.guessedSize level lastLevel tapeLength)
      (h.expectedSize level lastLevel tapeLength) := by
  by_cases hfull : level = 0
  · subst hfull
    simpa [expectedSize, expectedAgain, guessedSize] using h.expectedFull_restsOn tapeLength
  · by_cases hagain : lastLevel = some level
    · have hrests : RestsOn h level _ _ := expectedFrom_restsOn
        (h.dumps.filter (·.level = level)) (h.expectedFull tapeLength) hfull (by simp) (by simp)
      simpa [expectedSize, expectedAgain, guessedSize, hfull, hagain] using hrests
    · have hrests : RestsOn h level _ _ := expectedFrom_restsOn
        (firstDays level none h.dumps) (h.expectedAgain (level - 1) tapeLength) hfull
        (fun _ => mem_of_mem_firstDays) (firstDays_eq_nil (by simp))
      simpa [expectedSize, guessedSize, hfull, hagain] using hrests

/-! ## Backed sizes and guesses -/

/-- **Expected sizes are backed by history.** The size expected of a dump is a guess exactly if no
dump at its level is known and the recorded size is not trusted. A size that is no guess lies
between the smallest and the largest one of the dumps at its level, or is the recorded size if
there are none. The guess for an incremental is a tenth of what is expected of a full dump, if the
last dump was at the same level, and otherwise of one more dump at the level below. -/
theorem expected_sizes_backed (h : History) (level : Nat) (lastLevel : Option Nat)
    (tapeLength : Nat) :
    ((h.expectedSize level lastLevel tapeLength).guessed = true ↔
      (∀ d ∈ h.dumps, d.level ≠ level) ∧ h.levelSize level ≤ if level = 0 then 1000 else 0) ∧
    ((h.expectedSize level lastLevel tapeLength).guessed = false →
      (h.sizesAt level = [] →
        (h.expectedSize level lastLevel tapeLength).size = h.levelSize level) ∧
      (h.sizesAt level ≠ [] → ∃ least greatest,
        (h.sizesAt level).min? = some least ∧ (h.sizesAt level).max? = some greatest ∧
        least ≤ (h.expectedSize level lastLevel tapeLength).size ∧
        (h.expectedSize level lastLevel tapeLength).size ≤ greatest)) ∧
    ((h.expectedSize level lastLevel tapeLength).guessed = true → 1 ≤ level →
      (h.expectedSize level lastLevel tapeLength).size =
        if lastLevel = some level then (h.expectedSize 0 lastLevel tapeLength).size / 10
        else (h.expectedSize (level - 1) (some (level - 1)) tapeLength).size / 10) := by
  have hrests := h.expectedSize_restsOn level lastLevel tapeLength
  rw [← sizesAt_eq_nil_iff]
  generalize hexpected : h.expectedSize level lastLevel tapeLength = expected at hrests
  cases hrests with
  | dumps size least greatest =>
    obtain ⟨s, hs, hle⟩ := least
    obtain ⟨t, ht, hge⟩ := greatest
    have hsome : h.sizesAt level ≠ [] := List.ne_nil_of_mem hs
    refine ⟨⟨nofun, fun hnone => absurd hnone.1 hsome⟩,
      fun _ => ⟨fun hnone => absurd hnone hsome, fun _ => ?_⟩, nofun⟩
    obtain ⟨low, hlow⟩ := Option.isSome_iff_exists.mp (List.isSome_min?_of_mem hs)
    obtain ⟨high, hhigh⟩ := Option.isSome_iff_exists.mp (List.isSome_max?_of_mem ht)
    have hlowest : low ≤ s := (List.min?_eq_some_iff.mp hlow).2 s hs
    have hhighest : t ≤ high := (List.max?_eq_some_iff.mp hhigh).2 t ht
    exact ⟨low, high, hlow, hhigh, Nat.le_trans hlowest hle, Nat.le_trans hge hhighest⟩
  | record none trusted =>
    refine ⟨⟨nofun, fun hsmall => absurd hsmall.2 (Nat.not_le.mpr trusted)⟩,
      fun _ => ⟨fun _ => rfl, fun hsome => absurd none hsome⟩, nofun⟩
  | nothing none small =>
    refine ⟨⟨fun _ => ⟨none, small⟩, fun _ => rfl⟩, nofun, fun _ hlevel => ?_⟩
    rw [guessedSize, if_neg (Nat.pos_iff_ne_zero.mp hlevel)]

-- of four dumps at level 2 only two were the first in a row, and their mean is expected
example : ({ dumps := [⟨2, 100, 0, 0, 1⟩, ⟨2, 400, 0, 0, 2⟩, ⟨1, 900, 0, 0, 3⟩, ⟨2, 300, 0, 0, 4⟩,
    ⟨2, 600, 0, 0, 5⟩] } : History).expectedSize 2 (some 1) 1000000 = ⟨200, false⟩ := rfl

end History

end NightlyBackup
