import NightlyBackup.History.Recall

/-!
When full dumps fall due. Days are counted to the nearest one, half a day away from zero, so that
the count is the same in both directions but for its sign. A full dump is therefore due from half
a day before the end of its cycle on, to the second, and each day that passes brings it a day
nearer.
-/

namespace NightlyBackup

namespace Calendar

variable {start finish : Int}

def Counted (start finish : Int) : Prop :=
  -((dayLimit + 1) * secondsPerDay + secondsPerDay / 2) < finish - start ∧
    finish - start < dayLimit * secondsPerDay + secondsPerDay / 2

instance (start finish : Int) : Decidable (Counted start finish) :=
  inferInstanceAs (Decidable (_ ∧ _))

/-- Days forwards: half a day more counts as a day. -/
theorem daysBetween_of_le (h : start ≤ finish) : daysBetween start finish =
    clampDays ((finish - start + secondsPerDay / 2) / secondsPerDay) := by
  have hpos : 0 ≤ finish - start + secondsPerDay / 2 := by
    simp only [secondsPerDay]
    omega
  simp only [daysBetween]
  rw [if_pos (Int.sub_nonneg_of_le h), Int.tdiv_eq_ediv_of_nonneg hpos]

/-- Days backwards are those forwards with the other sign. -/
theorem daysBetween_of_ge (h : finish ≤ start) : daysBetween start finish =
    clampDays (-((start - finish + secondsPerDay / 2) / secondsPerDay)) := by
  rcases Int.lt_or_eq_of_le h with hlt | rfl
  · have hneg : ¬0 ≤ finish - start := by omega
    have hpos : 0 ≤ start - finish + secondsPerDay / 2 := by
      simp only [secondsPerDay]
      omega
    have hturned : finish - start - secondsPerDay / 2 =
        -(start - finish + secondsPerDay / 2) := by omega
    simp only [daysBetween]
    rw [if_neg hneg, hturned, Int.neg_tdiv, Int.tdiv_eq_ediv_of_nonneg hpos]
  · rw [daysBetween_of_le (Int.le_refl _), Int.sub_self]
    rfl

/-- Two moments that are not too far apart are whole days apart, and half a day at most. -/
theorem daysBetween_near (h : Counted start finish) :
    2 * (daysBetween start finish * secondsPerDay - (finish - start)).natAbs
      ≤ secondsPerDay := by
  obtain ⟨hlow, hhigh⟩ := h
  simp only [dayLimit, secondsPerDay] at hlow hhigh
  rcases Int.le_total start finish with hle | hge
  · rw [daysBetween_of_le hle]
    simp only [clampDays, dayLimit, secondsPerDay]
    omega
  · rw [daysBetween_of_ge hge]
    simp only [clampDays, dayLimit, secondsPerDay]
    omega

/-- The way back is as long as the way there. -/
theorem daysBetween_symm (h : Counted start finish) (h' : Counted finish start) :
    daysBetween finish start = -daysBetween start finish := by
  have hturned : ∀ {a b : Int}, a ≤ b → Counted a b → Counted b a →
      daysBetween b a = -daysBetween a b := by
    intro a b hle hahead hback
    obtain ⟨-, hhigh⟩ := hahead
    obtain ⟨hlow, -⟩ := hback
    simp only [dayLimit, secondsPerDay] at hlow hhigh
    rw [daysBetween_of_le hle, daysBetween_of_ge hle]
    simp only [clampDays, dayLimit, secondsPerDay]
    omega
  rcases Int.le_total start finish with hle | hge
  · exact hturned hle h h'
  · rw [hturned hge h' h, Int.neg_neg]

/-- A day later is a day more. -/
theorem daysBetween_tomorrow (hle : start ≤ finish) (h : Counted start (finish + secondsPerDay)) :
    daysBetween start (finish + secondsPerDay) = daysBetween start finish + 1 := by
  obtain ⟨-, hhigh⟩ := h
  have hlater : start ≤ finish + secondsPerDay := by
    simp only [secondsPerDay]
    omega
  rw [daysBetween_of_le hle, daysBetween_of_le hlater]
  simp only [clampDays, dayLimit, secondsPerDay] at hhigh ⊢
  omega

/-- `days` days have passed from half a day before on. That the count ends at the limit makes no
difference to fewer days than this. -/
theorem le_daysBetween_iff {days : Int} (hpos : 1 ≤ days) (hlimit : days ≤ dayLimit) :
    days ≤ daysBetween start finish ↔
      start + secondsPerDay * days - secondsPerDay / 2 ≤ finish := by
  simp only [dayLimit] at hlimit
  rcases Int.le_total start finish with hle | hge
  · rw [daysBetween_of_le hle]
    simp only [clampDays, dayLimit, secondsPerDay]
    omega
  · rw [daysBetween_of_ge hge]
    simp only [clampDays, dayLimit, secondsPerDay]
    omega

end Calendar

namespace History

open Calendar

variable {h : History} {date : Int} {cycle : Nat}

theorem daysToFull_of_date (hdate : h.levelDate? 0 = some date) (hlimit : (cycle : Int) ≤ dayLimit)
    (today : Int) : h.daysToFull .standard cycle today = cycle - daysBetween date today := by
  simp only [daysToFull, hdate]
  rw [Int.min_eq_left hlimit]

/-- **Due full dumps.** The full dump of a standard disk whose last one is recorded falls due half a
day before the end of its cycle, neither earlier nor later, and is a day nearer on the next day.
Days are counted alike in both directions, and never more than half a day away from the time that
lies between two moments. -/
theorem full_dump_falls_due (hdate : h.levelDate? 0 = some date) (hcycle : 1 ≤ cycle)
    (hlimit : (cycle : Int) ≤ dayLimit) :
    (∀ today, h.daysToFull .standard cycle today ≤ 0 ↔
      date + secondsPerDay * cycle - secondsPerDay / 2 ≤ today) ∧
    (∀ today, date ≤ today → Counted date (today + secondsPerDay) →
      h.daysToFull .standard cycle (today + secondsPerDay) =
        h.daysToFull .standard cycle today - 1) ∧
    (∀ start finish, Counted start finish → Counted finish start →
      daysBetween finish start = -daysBetween start finish) ∧
    ∀ start finish, Counted start finish →
      2 * (daysBetween start finish * secondsPerDay - (finish - start)).natAbs
        ≤ secondsPerDay := by
  refine ⟨fun today => ?_, fun today hle hcounted => ?_, fun _ _ => daysBetween_symm,
    fun _ _ => daysBetween_near⟩
  · have hpassed : (cycle : Int) ≤ daysBetween date today ↔ _ :=
      le_daysBetween_iff (by omega) hlimit
    rw [daysToFull_of_date hdate hlimit, ← hpassed]
    omega
  · rw [daysToFull_of_date hdate hlimit, daysToFull_of_date hdate hlimit,
      daysBetween_tomorrow hle hcounted]
    omega

def marchFull : History :=
  { levels := [(0, { size := 1000, mediaSize := 1000, seconds := 60, date := some 1709600400,
                     label := none })] }

/-- In a cycle of ten days it is due on the fourteenth from one o'clock in the afternoon on, and
half a day counts as a day in both directions. -/
theorem march_full_falls_due :
    marchFull.levelDate? 0 = some 1709600400 ∧ ((10 : Nat) : Int) ≤ dayLimit ∧
    marchFull.daysToFull .standard 10 1710421200 ≤ 0 ∧
    ¬marchFull.daysToFull .standard 10 1710421199 ≤ 0 ∧
    Counted 1709600400 (1710421199 + secondsPerDay) ∧
    marchFull.daysToFull .standard 10 (1710421199 + secondsPerDay) =
      marchFull.daysToFull .standard 10 1710421199 - 1 ∧
    Counted 0 43200 ∧ Counted 43200 0 ∧ daysBetween 43200 0 = -daysBetween 0 43200 ∧
    2 * (daysBetween 0 43200 * secondsPerDay - (43200 - 0)).natAbs ≤ secondsPerDay := by
  have hdate : marchFull.levelDate? 0 = some 1709600400 := rfl
  have hlimit : ((10 : Nat) : Int) ≤ dayLimit := by decide
  obtain ⟨hdue, htomorrow, hsymm, hnear⟩ :=
    full_dump_falls_due hdate (by decide) hlimit
  have hmorning : Counted 1709600400 (1710421199 + secondsPerDay) := by decide
  have hnoon : Counted 0 43200 := by decide
  have hback : Counted 43200 0 := by decide
  refine ⟨hdate, hlimit, (hdue 1710421200).mpr (by decide), ?_, hmorning,
    htomorrow 1710421199 (by decide) hmorning, hnoon, hback, hsymm 0 43200 hnoon hback,
    hnear 0 43200 hnoon⟩
  exact fun hle => absurd ((hdue 1710421199).mp hle) (by decide)

end History

end NightlyBackup
