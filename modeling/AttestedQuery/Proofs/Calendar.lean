import AttestedQuery.Literal.Instant
import Mathlib.Algebra.BigOperators.Group.Finset.Basic
import Mathlib.Tactic.IntervalCases

/-!
# Days counted one by one

The number of a day is found by arithmetic on cycles of 400 years. It is the number of days that
lie between the day and the first of January 1970: those of the whole years between them, of the
months before its month and of the days before it.
-/

set_option autoImplicit false

namespace AttestedQuery.Instant

open Finset

def daysInYear (year : Int) : Int := if isLeap year then 366 else 365

def daysToYear (year : Int) : Int :=
  match year - 1970 with
  | .ofNat later => ∑ i ∈ range later, daysInYear (1970 + i)
  | .negSucc earlier => -∑ i ∈ range (earlier + 1), daysInYear (1969 - i)

def daysToMonth (year : Int) (month : Nat) : Int :=
  ∑ i ∈ range (month - 1), (daysInMonth year (i + 1) : Int)

theorem isLeap_iff (year : Int) :
    isLeap year = true ↔ year % 400 = 0 ∨ year % 4 = 0 ∧ year % 100 ≠ 0 := by
  simp [isLeap]

theorem daysFromEpoch_next (year : Int) :
    daysFromEpoch (year + 1) 1 1 = daysFromEpoch year 1 1 + daysInYear year := by
  have leap := isLeap_iff year
  unfold daysInYear
  split
  next yes =>
    have rule := leap.1 yes
    simp only [daysFromEpoch]
    omega
  next no =>
    have rule := mt leap.2 no
    simp only [daysFromEpoch]
    omega

theorem daysFromEpoch_year (year : Int) : daysFromEpoch year 1 1 = daysToYear year := by
  have later (n : Nat) :
      daysFromEpoch (1970 + n) 1 1 = ∑ i ∈ range n, daysInYear (1970 + i) := by
    induction n with
    | zero => rfl
    | succ n induction =>
      rw [sum_range_succ, ← induction, ← daysFromEpoch_next, Nat.cast_succ, add_assoc]
  have earlier (n : Nat) :
      daysFromEpoch (1970 - n) 1 1 = -∑ i ∈ range n, daysInYear (1969 - i) := by
    induction n with
    | zero => rfl
    | succ n induction =>
      have next := daysFromEpoch_next (1969 - n)
      rw [show (1969 - n : Int) + 1 = 1970 - n by omega, induction] at next
      rw [sum_range_succ, show (1970 - (n + 1 : Nat) : Int) = 1969 - n by omega]
      omega
  unfold daysToYear
  split
  next n distance =>
    rw [← later, show year = 1970 + (n : Int) by have : year - 1970 = n := distance; omega]
  next n distance =>
    have : year - 1970 = -(n + 1 : Int) := distance
    rw [← earlier, show year = 1970 - ((n + 1 : Nat) : Int) by omega]

/-- The only month with a length of its own in leap years ends where years are counted from. -/
theorem daysFromEpoch_march (year : Int) :
    daysFromEpoch year 3 1 = daysFromEpoch year 1 1 + 31 + daysInMonth year 2 := by
  have leap := isLeap_iff year
  rw [daysInMonth, if_pos rfl]
  split
  next yes =>
    have rule := leap.1 yes
    simp only [daysFromEpoch, Nat.reduceLeDiff, ↓reduceIte]
    omega
  next no =>
    have rule := mt leap.2 no
    simp only [daysFromEpoch, Nat.reduceLeDiff, ↓reduceIte]
    omega

theorem daysFromEpoch_from_march (year : Int) {month : Nat} (late : ¬month ≤ 2) :
    daysFromEpoch year month 1 =
      daysFromEpoch year 3 1 + ((153 * (month - 3) + 2) / 5 : Nat) := by
  simp only [daysFromEpoch, if_neg late, Nat.reduceLeDiff, ↓reduceIte]
  omega

theorem daysFromEpoch_month (year : Int) {month : Nat} (first : 1 ≤ month) (last : month ≤ 12) :
    daysFromEpoch year month 1 = daysFromEpoch year 1 1 + daysToMonth year month := by
  by_cases late : month ≤ 2
  · interval_cases month
    · simp [daysToMonth]
    · simp only [daysToMonth, daysFromEpoch, daysInMonth, Nat.reduceLeDiff, ↓reduceIte]
      rw [sum_range_succ]
      simp
      omega
  · rw [daysFromEpoch_from_march year late, daysFromEpoch_march]
    interval_cases month <;> simp [daysToMonth, sum_range_succ, daysInMonth] <;> omega

theorem daysFromEpoch_day (year : Int) (month : Nat) {day : Nat} (first : 1 ≤ day) :
    daysFromEpoch year month day = daysFromEpoch year month 1 + (day - 1 : Int) := by
  simp only [daysFromEpoch]
  omega

/-- The number of a day counts the days between it and the first of January 1970. -/
theorem daysFromEpoch_eq (year : Int) {month day : Nat} (first : 1 ≤ month) (last : month ≤ 12)
    (positive : 1 ≤ day) : daysFromEpoch year month day =
      daysToYear year + daysToMonth year month + (day - 1 : Int) := by
  rw [daysFromEpoch_day year month positive, daysFromEpoch_month year first last,
    daysFromEpoch_year]

end AttestedQuery.Instant
