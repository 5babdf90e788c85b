import NightlyBackup.Proofs.Promoting
import NightlyBackup.Proofs.Summing

/-!
Breaking up hills. On a hill, a day ahead on which the full dumps of several disks come together,
the first disk that may be dumped in full tonight is promoted. The tallest hill with such a disk
gives one, the earliest of the tallest; the others are left as they are.
-/

namespace NightlyBackup

open Night Planning

variable {n m k : Night} {id slot day : Nat} {ids : List Nat} {hill other : Hill}
  {left sorted : List Hill} {fail : Fault → Night → Prop}

/-! ## Hills and who may leave them -/

/-- A day of the cycle on which full dumps of two disks or more come together; overdue ones come
tonight. -/
structure Night.IsHill (n : Night) (day : Nat) : Prop where
  near : day < min n.settings.dumpCycle maxHillDays
  crowded : 2 ≤ (dueOn n day).length
  high : 0 < heightOf n day

def Night.Breakable (n : Night) (day : Nat) : Prop :=
  n.IsHill day ∧ ∃ id ∈ n.scheduled, n.MayLeave day id

/-- The tallest of the hills that can be broken up, the earliest if several are as tall. -/
structure Night.TallestBreakable (n : Night) (day : Nat) : Prop where
  breakable : n.Breakable day
  tallest : ∀ other, n.Breakable other → heightOf n other < heightOf n day ∨
    heightOf n other = heightOf n day ∧ day ≤ other

/-- The disk that is to be promoted from a hill, if any. -/
def Night.ToPromote (n : Night) : Option Nat → Prop
  | none => ∀ day, ¬n.Breakable day
  | some id => ∃ day, n.TallestBreakable day ∧ n.FirstToLeave day n.scheduled (some id)

theorem Night.ToPromote.isSome_iff {found : Option Nat} (h : n.ToPromote found) :
    found.isSome = true ↔ ∃ day, n.Breakable day := by
  cases found with
  | none => exact ⟨nofun, fun ⟨day, hday⟩ => absurd hday (h day)⟩
  | some id =>
    obtain ⟨day, hday, -⟩ := h
    exact ⟨fun _ => ⟨day, hday.breakable⟩, fun _ => rfl⟩

/-! ## The hills in turn -/

theorem mem_hills : hill ∈ hills n ↔ n.IsHill hill.day ∧ heightOf n hill.day = hill.size := by
  have hon : ∀ day, hillOn? n day = some hill ↔
      (2 ≤ (dueOn n day).length ∧ 0 < heightOf n day) ∧ day = hill.day ∧
        heightOf n day = hill.size := by
    intro day
    simp only [hillOn?, Option.ite_none_right_eq_some, Option.some.injEq]
    refine and_congr Iff.rfl ⟨?_, ?_⟩
    · rintro rfl
      exact ⟨rfl, rfl⟩
    · rintro ⟨rfl, hsize⟩
      exact congrArg (Hill.mk hill.day) hsize
  simp only [hills, hillDays, List.mem_filterMap, List.mem_range, hon]
  constructor
  · rintro ⟨day, hnear, ⟨hcrowd, hhigh⟩, rfl, hsize⟩
    exact ⟨⟨hnear, hcrowd, hhigh⟩, hsize⟩
  · rintro ⟨⟨hnear, hcrowd, hhigh⟩, hsize⟩
    exact ⟨hill.day, hnear, ⟨hcrowd, hhigh⟩, rfl, hsize⟩

theorem higher_iff : higher hill other = true ↔
    other.size < hill.size ∨ hill.size = other.size ∧ hill.day ≤ other.day := by
  simp [higher]

structure Tallest (left : List Hill) (hill : Hill) : Prop where
  mem : hill ∈ left
  tallest : ∀ other ∈ left, higher hill other = true

/-- The tallest hill that is left is tried, and passed over if no disk may leave it, until one disk
is promoted or no hill is left. -/
inductive BreaksInTurn : List Hill → Night → Bool → Night → Prop
  | level {n : Night} : BreaksInTurn [] n false n
  | broken {left : List Hill} {hill : Hill} {n m k : Night} {id slot : Nat}
    (tallest : Tallest left hill)
    (found : findOnHill hill.day n.scheduled n = .ok (some (id, slot)) m)
    (act : promote id slot true m = .ok () k) : BreaksInTurn left n true k
  | spared {left : List Hill} {hill : Hill} {n m k : Night} {broken : Bool}
    (tallest : Tallest left hill)
    (found : findOnHill hill.day n.scheduled n = .ok none m)
    (rest : BreaksInTurn (left.erase hill) m broken k) : BreaksInTurn left n broken k

namespace Planning

/-- Going through sorted hills tries the tallest that is left each time. -/
theorem leads_breakUp_inTurn (hn : n.Orderly) (hperm : sorted.Perm left)
    (hsorted : sorted.Pairwise fun a b => higher a b = true) :
    Leads (breakUp sorted) n (fun broken k => BreaksInTurn left n broken k) fail := by
  induction sorted generalizing left n with
  | nil =>
    obtain rfl := List.perm_nil.mp hperm.symm
    exact .level
  | cons hill sorted ih =>
    obtain ⟨hhighest, hsorted⟩ := List.pairwise_cons.mp hsorted
    have htallest : Tallest left hill := by
      refine ⟨hperm.mem_iff.mp List.mem_cons_self, fun other hother => ?_⟩
      rcases List.mem_cons.mp (hperm.mem_iff.mpr hother) with rfl | hother
      · exact higher_iff.mpr (Or.inr ⟨rfl, Nat.le_refl _⟩)
      · exact hhighest other hother
    have hscheduled : ∀ id ∈ n.scheduled, n.place id = some .scheduled :=
      fun id => hn.sound.mem_scheduled.mp
    simp only [breakUp, leads_bind, leads_get]
    apply (leads_findOnHill hill.day hn hscheduled).run.imp
    rintro found m ⟨hfind, hm, -, hfound⟩
    have hmorder := (hm.balanced hn).orderly
    cases found with
    | none =>
      have hrest : sorted.Perm (left.erase hill) := by
        simpa using hperm.erase hill
      exact (ih hmorder hrest hsorted).imp fun _ k hk => .spared htallest hfind hk
    | some found =>
      obtain ⟨id, slot⟩ := found
      obtain ⟨hp, he, -⟩ := hfound id slot rfl
      rw [leads_bind]
      exact (leads_promote hmorder hp he.candidate).run.imp
        fun _ k hk => .broken htallest hfind hk.1

end Planning

/-- **The loop over the hills.** Either no disk may leave any of the hills and only notes were made,
or the first disk that may leave the tallest hill that one may leave is promoted, and no other. -/
theorem BreaksInTurn.promotes {broken : Bool} (h : BreaksInTurn left m broken k) (hn : n.Orderly)
    (hm : Noted n m) : ∃ found : Option Nat, broken = found.isSome ∧
      Promotions n (found.toList.map fun id => (id, true)) k ∧
      match found with
      | none => ∀ hill ∈ left, ∀ id ∈ n.scheduled, ¬n.MayLeave hill.day id
      | some id => ∃ hill ∈ left, n.FirstToLeave hill.day n.scheduled (some id) ∧
        ∀ other ∈ left, (∃ j ∈ n.scheduled, n.MayLeave other.day j) → higher hill other = true := by
  have hfind : ∀ {day m found m'}, Noted n m → findOnHill day m.scheduled m = .ok found m' →
      Noted n m' ∧ n.FirstToLeave day n.scheduled (found.map (·.1)) ∧ Promotable found m' := by
    intro day m found m' hm hact
    have hmorder := (hm.balanced hn).orderly
    have hscheduled : ∀ id ∈ m.scheduled, m.place id = some .scheduled :=
      fun id => hmorder.sound.mem_scheduled.mp
    obtain ⟨hm', hfirst, hfound⟩ := (leads_findOnHill day hmorder hscheduled).reached hact
    rw [hm.firstToLeave_iff, hm.scheduled] at hfirst
    exact ⟨hm.trans hm', hfirst, hfound⟩
  induction h with
  | level => exact ⟨none, rfl, (Promotions.refl hn).noted hm, fun _ h => nomatch h⟩
  | @broken left hill m m' k id slot tallest found act =>
    obtain ⟨hm', hfirst, hfound⟩ := hfind hm found
    refine ⟨some id, rfl, ?_, hill, tallest.mem, hfirst, fun other hother _ => ?_⟩
    · exact ((Promotions.refl hn).noted hm').promote hn.sound hfound act
    · exact tallest.tallest other hother
  | @spared left hill m m' k broken tallest found rest ih =>
    obtain ⟨hm', hstay, -⟩ := hfind hm found
    obtain ⟨picked, hbroken, hdone, hpicked⟩ := ih hm'
    refine ⟨picked, hbroken, hdone, ?_⟩
    have hleft : ∀ {other}, other ∈ left → (∃ j ∈ n.scheduled, n.MayLeave other.day j) →
        other ∈ left.erase hill := by
      rintro other hother ⟨j, hj, hleave⟩
      refine (List.mem_erase_of_ne ?_).mpr hother
      rintro rfl
      exact hstay j hj hleave
    cases picked with
    | none => exact fun other hother j hj hleave =>
        hpicked other (hleft hother ⟨j, hj, hleave⟩) j hj hleave
    | some id =>
      obtain ⟨best, hbest, hfirst, htall⟩ := hpicked
      exact ⟨best, List.mem_of_mem_erase hbest, hfirst,
        fun other hother hleave => htall other (hleft hother hleave) hleave⟩

/-! ## The whole search -/

theorem higher_trans (a b c : Hill) (hab : higher a b = true) (hbc : higher b c = true) :
    higher a c = true := by
  rw [higher_iff] at *
  omega

theorem higher_total (a b : Hill) : (higher a b || higher b a) = true := by
  rw [Bool.or_eq_true, higher_iff, higher_iff]
  omega

theorem leads_breakHill_inTurn (hn : n.Orderly) (hfull : n.totals.fullSize = 0)
    (hheights : sizesOverflow? ((hillDays n).map (heightOf n)) = none) :
    Leads breakHill n (fun broken k => BreaksInTurn (hills n) n broken k) fail := by
  simp only [breakHill, leads_bind, leads_get, hfull, Nat.lt_irrefl, if_false]
  rw [hheights, leads_reckon, Night.reckon_none]
  exact leads_breakUp_inTurn hn (List.mergeSort_perm ..)
    (List.pairwise_mergeSort higher_trans higher_total _)

/-- **Breaking up a hill.** If tonight has no full dump and the sums of the search fit their word,
it tries the hills in turn and ends, and nothing overflows. It promotes a disk exactly if some hill
can be broken up, and then only one: the first that may leave the tallest hill that can be broken
up. -/
theorem hill_broken_up (hn : n.Orderly) (hfull : n.totals.fullSize = 0) (hfit : n.HillsFit) :
    ∃ found k, breakHill n = .ok found.isSome k ∧
      BreaksInTurn (hills n) n found.isSome k ∧
      (found.isSome = true ↔ ∃ day, n.Breakable day) ∧ n.ToPromote found ∧
      Promotions n (found.toList.map fun id => (id, true)) k ∧
      k.totals.overflow = n.totals.overflow := by
  have hheights : sizesOverflow? ((hillDays n).map (heightOf n)) = none := by
    simpa using hfit.heights
  obtain ⟨broken, k, hrun, hturns⟩ := (leads_breakHill_inTurn hn hfull hheights).exists_ok
  obtain ⟨found, rfl, hdone, hfound⟩ := hturns.promotes hn .refl
  have hpromote : n.ToPromote found := by
    cases found with
    | none =>
      rintro day ⟨hday, id, hid, hleave⟩
      exact hfound ⟨day, heightOf n day⟩ (mem_hills.mpr ⟨hday, rfl⟩) id hid hleave
    | some id =>
      obtain ⟨hill, hmem, hfirst, htall⟩ := hfound
      obtain ⟨hday, hsize⟩ := mem_hills.mp hmem
      refine ⟨hill.day, ⟨⟨hday, id, hfirst.mem⟩, ?_⟩, hfirst⟩
      rintro other ⟨hother, hleave⟩
      have hhigher := higher_iff.mp (htall ⟨other, heightOf n other⟩
        (mem_hills.mpr ⟨hother, rfl⟩) hleave)
      rw [← hsize] at hhigher
      exact hhigher.imp_right fun ⟨hequal, hle⟩ => ⟨hequal.symm, hle⟩
  exact ⟨found, k, hrun, hturns, hpromote.isSome_iff, hpromote, hdone,
    (overflow_breakHill hn hfit).ok hrun⟩

/-- Two full dumps that were put off make a hill tonight, and the first of them is brought back. -/
theorem hill_broken_up_of_two : twoPutOff.Orderly ∧ twoPutOff.totals.fullSize = 0 ∧
    twoPutOff.HillsFit ∧ twoPutOff.IsHill 0 ∧ ∃ k, breakHill twoPutOff = .ok true k ∧
      Promotions twoPutOff [(0, true)] k := by
  have hhill : twoPutOff.IsHill 0 := ⟨by decide, by decide, by decide⟩
  have hroom : twoPutOff.RoomFor 0 0 := by
    unfold Night.RoomFor
    decide
  have hleave : twoPutOff.MayLeave 0 0 := ⟨rfl, rfl, 0, ⟨rfl, rfl, by decide⟩, hroom⟩
  have hfit : twoPutOff.HillsFit := by
    have hsums : ∀ id ∈ [0, 1], (twoPutOff.plan id).positiveSlot? 0 = some 0 ∧
        IntWord.unsigned64.Holds
          ((twoPutOff.totals.size + ((twoPutOff.plan id).mediaSize? 0).getD 0 : Nat) : Int) := by
      decide
    refine ⟨by decide, fun id hid slot he => ?_⟩
    obtain ⟨hslot, hsum⟩ := hsums id hid
    cases hslot.symm.trans he.full
    exact hsum
  obtain ⟨found, k, hrun, -, hbreaks, hfound, hdone, -⟩ :=
    hill_broken_up twoPutOff_orderly rfl hfit
  cases found with
  | none => exact absurd ⟨hhill, 0, List.mem_cons_self, hleave⟩ (hfound 0)
  | some id =>
    obtain ⟨day, ⟨⟨hday, j, hj, hjleave⟩, -⟩, front, back, hsplit, -, hfront⟩ := hfound
    have hdue : ∀ j ∈ [0, 1], (twoPutOff.plan j).nextFull = 0 := by decide
    obtain rfl : day = 0 := Int.ofNat.inj (hjleave.due.symm.trans (hdue j hj))
    have hscheduled : twoPutOff.scheduled = [0, 1] := rfl
    rw [hscheduled] at hsplit
    cases front with
    | nil =>
      obtain rfl : 0 = id := (List.cons.inj hsplit).1
      exact ⟨twoPutOff_orderly, rfl, hfit, hhill, k, hrun, hdone⟩
    | cons first front =>
      obtain rfl : 0 = first := (List.cons.inj hsplit).1
      exact absurd hleave (hfront 0 List.mem_cons_self)

end NightlyBackup
