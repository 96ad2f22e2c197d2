import Mathlib.Algebra.BigOperators.Intervals
import Mathlib.Data.Int.ConditionallyCompleteOrder
import Mathlib.Data.Rat.Floor

/-!
# `JSDate::MakeDay`

Doubles are rational numbers, `none` where they are not finite, and their arithmetic is exact: this is about the
range in which the integers among them are. The one quotient that need not be a double, that of the months by
twelve, is cut to an integer at once, and below `2 ^ 53` rounding does not bring it to another one. `int64_t` does
not overflow there and is `Int`, with the division and the remainder of C++.
-/

namespace ArkRuntime

namespace Date

abbrev Double := Option Rat

/-- `NumberHelper::TruncateDouble`, and the conversion to an integer. -/
def truncateDouble (d : Rat) : Int := if 0 ≤ d then ⌊d⌋ else ⌈d⌉

def daysInYear : Int := 365
def leapNumber (i : Nat) : Int := [4, 100, 400].getD i 0
def yearNumber (i : Nat) : Int := [1970, 1969, 1901, 1601].getD i 0
def mouthPerYear : Int := 12

/-- `DAYS_FROM_MONTH`. -/
def daysFromMonth : List (List Int) :=
  [[0, 31, 59, 90, 120, 151, 181, 212, 243, 273, 304, 334, 365],
   [0, 31, 60, 91, 121, 152, 182, 213, 244, 274, 305, 335, 366]]

/-- `DateUtils::IsLeap`. -/
def isLeap (year : Int) : Bool :=
  year.tmod (leapNumber 0) == 0 && (year.tmod (leapNumber 1) != 0 || year.tmod (leapNumber 2) == 0)

/-- `DateUtils::FloorDiv`. -/
def floorDiv (a b : Int) : Int :=
  let m := a.tmod b
  if m < 0 then (a - m - b).tdiv b else (a - m).tdiv b

/-- `DateUtils::GetDaysFromYear`. -/
def getDaysFromYear (year : Int) : Int :=
  daysInYear * (year - yearNumber 0) + floorDiv (year - yearNumber 1) (leapNumber 0) -
    floorDiv (year - yearNumber 2) (leapNumber 1) + floorDiv (year - yearNumber 3) (leapNumber 2)

/-- `MakeDay`. -/
def makeDay (year month date : Double) : Double := do
  let year ← year
  let month ← month
  let date ← date
  let yearInteger := truncateDouble year
  let monthInteger := truncateDouble month
  let y := yearInteger + truncateDouble ((monthInteger : Rat) / mouthPerYear)
  let m := monthInteger.tmod mouthPerYear
  let (m, y) := if m < 0 then (m + mouthPerYear, y - 1) else (m, y)
  let days := getDaysFromYear y
  let index := if isLeap (truncateDouble year) then 1 else 0
  let days := days + ((daysFromMonth.getD index []).getD m.toNat 0)
  return ((days - 1 + truncateDouble date : Int) : Rat)

/-! ## The calendar -/

/-- The leap years of the Gregorian calendar, before its introduction too. -/
def IsLeapYear (y : Int) : Prop := 4 ∣ y ∧ (¬100 ∣ y ∨ 400 ∣ y)

instance (y : Int) : Decidable (IsLeapYear y) := inferInstanceAs (Decidable (_ ∧ (_ ∨ _)))

/-- The days of a month, January being 0. -/
def daysInMonth (y : Int) (m : Nat) : Int :=
  if m = 1 then if IsLeapYear y then 29 else 28
  else if m = 3 ∨ m = 5 ∨ m = 8 ∨ m = 10 then 30
  else 31

def daysOfYear (y : Int) : Int := ∑ m ∈ Finset.range 12, daysInMonth y m

/-- The days from the beginning of 1970 to the beginning of a year. -/
def firstDay (y : Int) : Int :=
  match y - 1970 with
  | .ofNat n => ∑ k ∈ Finset.range n, daysOfYear (1970 + k)
  | .negSucc n => -∑ k ∈ Finset.range (n + 1), daysOfYear (1969 - k)

/-- The days from the beginning of 1970 to the first day of a month. -/
def firstOfMonth (y : Int) (m : Nat) : Int := firstDay y + ∑ k ∈ Finset.range m, daysInMonth y k

variable {y a b : Int}

theorem daysOfYear_eq (y : Int) : daysOfYear y = if IsLeapYear y then 366 else 365 := by
  by_cases leap : IsLeapYear y
  · simp [daysOfYear, daysInMonth, leap, Finset.sum_range_succ]
  · simp [daysOfYear, daysInMonth, leap, Finset.sum_range_succ]

theorem isLeap_iff : isLeap y = true ↔ IsLeapYear y := by
  have multiple (n : Int) : y.tmod n = 0 ↔ n ∣ y := Int.dvd_iff_tmod_eq_zero.symm
  simp only [isLeap, IsLeapYear, Bool.and_eq_true, Bool.or_eq_true, beq_iff_eq, bne_iff_ne, ne_eq, multiple]
  rfl

/-- Floor division from the truncating one. -/
theorem ediv_emod_eq (a : Int) (positive : 0 < b) :
    a / b = (if a.tmod b < 0 then a.tdiv b - 1 else a.tdiv b) ∧
      a % b = if a.tmod b < 0 then a.tmod b + b else a.tmod b := by
  have whole := Int.tmod_add_mul_tdiv a b
  have below := Int.tmod_lt_of_pos a positive
  have above := Int.lt_tmod_of_pos a positive
  by_cases negative : a.tmod b < 0
  · rw [if_pos negative, if_pos negative, Int.ediv_emod_unique positive, Int.mul_sub]
    omega
  · rw [if_neg negative, if_neg negative, Int.ediv_emod_unique positive]
    omega

theorem floorDiv_eq (positive : 0 < b) : floorDiv a b = a / b := by
  have whole := Int.tmod_add_mul_tdiv a b
  rw [(ediv_emod_eq a positive).1, floorDiv]
  by_cases negative : a.tmod b < 0
  · rw [if_pos negative, if_pos negative, show a - a.tmod b - b = b * (a.tdiv b - 1) by linarith,
      Int.mul_tdiv_cancel_left _ positive.ne']
  · rw [if_neg negative, if_neg negative, show a - a.tmod b = b * a.tdiv b by linarith,
      Int.mul_tdiv_cancel_left _ positive.ne']

theorem getDaysFromYear_1970 : getDaysFromYear 1970 = 0 := by decide

/-- A year after another is as many days later as that one has. -/
theorem getDaysFromYear_succ (y : Int) : getDaysFromYear (y + 1) = getDaysFromYear y + daysOfYear y := by
  have four (a : Int) : floorDiv a (leapNumber 0) = a / 4 := floorDiv_eq (by decide)
  have hundred (a : Int) : floorDiv a (leapNumber 1) = a / 100 := floorDiv_eq (by decide)
  have fourHundred (a : Int) : floorDiv a (leapNumber 2) = a / 400 := floorDiv_eq (by decide)
  rw [daysOfYear_eq, getDaysFromYear, getDaysFromYear, four, four, hundred, hundred, fourHundred, fourHundred,
    show daysInYear = 365 from rfl, show yearNumber 0 = 1970 from rfl, show yearNumber 1 = 1969 from rfl,
    show yearNumber 2 = 1901 from rfl, show yearNumber 3 = 1601 from rfl]
  by_cases leap : IsLeapYear y
  · rw [if_pos leap]
    unfold IsLeapYear at leap
    omega
  · rw [if_neg leap]
    unfold IsLeapYear at leap
    omega

theorem getDaysFromYear_eq (y : Int) : getDaysFromYear y = firstDay y := by
  have later (n : Nat) : getDaysFromYear (1970 + n) = ∑ k ∈ Finset.range n, daysOfYear (1970 + k) := by
    induction n with
    | zero => exact getDaysFromYear_1970
    | succ n ih => rw [Finset.sum_range_succ, ← ih, ← getDaysFromYear_succ, Nat.cast_succ, add_assoc]
  have earlier (n : Nat) : getDaysFromYear (1970 - n) = -∑ k ∈ Finset.range n, daysOfYear (1969 - k) := by
    induction n with
    | zero => exact getDaysFromYear_1970
    | succ n ih =>
      have step := getDaysFromYear_succ (1969 - n)
      rw [show (1969 : Int) - n + 1 = 1970 - n by omega, ih] at step
      rw [Finset.sum_range_succ, show (1970 : Int) - (n + 1 : Nat) = 1969 - n by omega]
      linarith
  unfold firstDay
  cases offset : y - 1970 with
  | ofNat n =>
    rw [Int.ofNat_eq_natCast] at offset
    rw [show y = 1970 + n by omega]
    exact later n
  | negSucc n =>
    rw [Int.negSucc_eq] at offset
    rw [show y = 1970 - (n + 1 : Nat) by omega]
    exact earlier (n + 1)

/-- The table holds the days before each month. -/
theorem daysFromMonth_eq {m : Nat} (month : m < 12) (leap : Bool) (same : leap = true ↔ IsLeapYear y) :
    (daysFromMonth.getD (if leap then 1 else 0) []).getD m 0 = ∑ k ∈ Finset.range m, daysInMonth y k := by
  have table : ∀ leap : Bool, ∀ m : Fin 12, (daysFromMonth.getD (if leap then 1 else 0) []).getD m 0 =
      ∑ k ∈ Finset.range m, if k = 1 then if leap = true then (29 : Int) else 28
        else if k = 3 ∨ k = 5 ∨ k = 8 ∨ k = 10 then 30 else 31 := by decide +kernel
  rw [table leap ⟨m, month⟩]
  simp only [daysInMonth, same]

/-- The two rows differ from March on. -/
theorem daysFromMonth_eq_iff {m : Nat} (month : m < 12) (leap leap' : Bool) :
    (daysFromMonth.getD (if leap then 1 else 0) []).getD m 0 =
      (daysFromMonth.getD (if leap' then 1 else 0) []).getD m 0 ↔ m < 2 ∨ leap = leap' := by
  have table : ∀ leap leap' : Bool, ∀ m : Fin 12, (daysFromMonth.getD (if leap then 1 else 0) []).getD m 0 =
      (daysFromMonth.getD (if leap' then 1 else 0) []).getD m 0 ↔ m.val < 2 ∨ leap = leap' := by decide +kernel
  exact table leap leap' ⟨m, month⟩

theorem truncateDouble_intCast (n : Int) : truncateDouble n = n := by
  simp [truncateDouble]

/-- The quotient of integers is cut like that of C++. -/
theorem truncateDouble_div (n : Int) : truncateDouble ((n : Rat) / mouthPerYear) = n.tdiv 12 := by
  have floor (n : Int) : ⌊(n : Rat) / (12 : Nat)⌋ = n / (12 : Nat) := Rat.floor_intCast_div_natCast n 12
  have twelve : (n : Rat) / mouthPerYear = (n : Rat) / (12 : Nat) := by norm_num [mouthPerYear]
  rw [truncateDouble, twelve]
  by_cases positive : 0 ≤ n
  · rw [if_pos (by positivity), floor, Int.tdiv_eq_ediv_of_nonneg positive]
    rfl
  · have below : ¬0 ≤ (n : Rat) / (12 : Nat) := by
      rw [not_le, div_neg_iff]
      exact .inr ⟨by exact_mod_cast not_le.mp positive, by norm_num⟩
    have negated := floor (-n)
    rw [Int.cast_neg, neg_div, Int.floor_neg] at negated
    have cut := Int.neg_tdiv n 12
    rw [Int.tdiv_eq_ediv_of_nonneg (by omega)] at cut
    rw [if_neg below]
    omega

/-- The month in a year and the year it is in, with the leap row of the year that was given. -/
theorem makeDay_eq (year month date : Int) :
    makeDay (some (year : Rat)) (some (month : Rat)) (some (date : Rat)) =
      some ((firstDay (year + month / 12) +
        (daysFromMonth.getD (if isLeap year then 1 else 0) []).getD (month % 12).toNat 0 - 1 + date : Int) : Rat) := by
  obtain ⟨quotient, remainder⟩ := ediv_emod_eq month (b := 12) (by decide)
  rw [quotient, remainder, ← getDaysFromYear_eq]
  have cut := truncateDouble_div month
  rw [show mouthPerYear = 12 from rfl] at cut
  simp only [makeDay, Option.bind_eq_bind, Option.bind_some, truncateDouble_intCast,
    show mouthPerYear = 12 from rfl, cut]
  by_cases negative : month.tmod 12 < 0
  · rw [if_pos negative, if_pos negative, if_pos negative, add_sub_assoc year]
    rfl
  · rw [if_neg negative, if_neg negative, if_neg negative]
    rfl

/-- `MakeDay` gives the day of the calendar if and only if the month is January or February, or the year given and
    the year that the month is in are both leap years or both not. -/
theorem makeDay_iff (year month date : Int) :
    makeDay (some (year : Rat)) (some (month : Rat)) (some (date : Rat)) =
        some ((firstOfMonth (year + month / 12) (month % 12).toNat + date - 1 : Int) : Rat) ↔
      month % 12 < 2 ∨ (IsLeapYear year ↔ IsLeapYear (year + month / 12)) := by
  have inside : (month % 12).toNat < 12 := by omega
  have rows := daysFromMonth_eq_iff inside (isLeap year) (isLeap (year + month / 12))
  rw [← isLeap_iff, ← isLeap_iff, Bool.coe_iff_coe, show month % 12 < 2 ↔ (month % 12).toNat < 2 by omega, ← rows,
    makeDay_eq, Option.some.injEq, Int.cast_inj, firstOfMonth,
    ← daysFromMonth_eq inside (isLeap (year + month / 12)) isLeap_iff]
  omega

/-- March 2001, as month 14 of 2000: the leap day of 2000 is counted. -/
theorem makeDay_month14 :
    makeDay (some (2000 : Int)) (some (14 : Int)) (some (1 : Int)) ≠
      some ((firstOfMonth (2000 + 14 / 12) (14 % 12 : Int).toNat + 1 - 1 : Int) : Rat) := by
  decide +kernel

end Date

end ArkRuntime
