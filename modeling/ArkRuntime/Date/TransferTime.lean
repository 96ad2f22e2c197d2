import ArkRuntime.Date.MakeDay
import Mathlib.Tactic.IntervalCases

/-!
# `TransferTimeToDate`

The fields of a time value, and back (`ecmascript/js_date.cpp`). The year, the month and the day are counted in
eras of 400 years that begin in March; the month of the last call is kept in static variables of type `int`, and a
day within 1 and 27 of it is found without counting. `int64_t` does not overflow and is `Int`. A sum of `double`s is
the exact one: that of the fields of a time value, at most 8640000000000000 ms from 1970, is far below `2 ^ 53`.
-/

namespace ArkRuntime

namespace Date

def msPerSecond : Int := 1000
def secPerMinute : Int := 60
def msPerMinute : Int := 60000
def msPerHour : Int := 3600000
def msPerDay : Int := 86400000
def dayPerWeek : Int := 7
def days1970To0000 : Int := 719468
def daysIn4Years : Int := 1460
def daysIn100Years : Int := 36524
def daysIn400Years : Int := 146097
def daysFebruary : Int := 28

/-- The fields of the array that `TransferTimeToDate` fills in. -/
structure Fields where
  year : Int
  month : Int
  days : Int
  hour : Int
  min : Int
  sec : Int
  ms : Int
  weekday : Int
  deriving DecidableEq, Repr

/-- The static members of `DateUtils`. -/
structure Cache where
  isCached : Bool
  preSumDays : Int
  preDays : Int
  preMonth : Int
  preYear : Int

def emptyCache : Cache := ⟨false, 0, 0, 0, 0⟩

/-- The conversion to `int`. -/
def toInt (n : Int) : Int := n.bmod (2 ^ 32)

/-- `DateUtils::Mod`. -/
def mod (a b : Int) : Int :=
  let m := a.tmod b
  if m < 0 then m + b else m

/-- The year, the month and the day, without the cache. -/
def countYearFromDays (days : Int) : Int × Int × Int :=
  let d := days + days1970To0000
  let era := (if d ≥ 0 then d else d - daysIn400Years + 1).tdiv daysIn400Years
  let doe := d - era * daysIn400Years
  let yoe := (doe - doe.tdiv daysIn4Years + doe.tdiv daysIn100Years - doe.tdiv (daysIn400Years - 1)).tdiv daysInYear
  let y := yoe + era * leapNumber 2
  let doy := doe - (daysInYear * yoe + yoe.tdiv (leapNumber 0) - yoe.tdiv (leapNumber 1))
  let mp := (5 * doy + 2).tdiv 153
  let month := mp + if mp < 10 then 3 else -9
  let year := y + if month ≤ 2 then 1 else 0
  let month := month - 1
  let realDay := doy - (153 * mp + 2).tdiv 5 + 1
  (year, month, realDay)

/-- `DateUtils::GetYearFromDays`. -/
def getYearFromDays (cache : Cache) (days : Int) : (Int × Int × Int) × Cache :=
  let newDays := cache.preDays + (days - cache.preSumDays)
  if cache.isCached ∧ newDays ≥ 1 ∧ newDays < daysFebruary then
    ((cache.preYear, cache.preMonth, newDays),
      { cache with preSumDays := toInt days, preDays := toInt newDays })
  else
    let (year, month, realDay) := countYearFromDays days
    ((year, month, realDay), ⟨true, toInt days, toInt realDay, toInt month, toInt year⟩)

/-- `DateUtils::TransferTimeToDate`. -/
def transferTimeToDate (cache : Cache) (timeMs : Int) : Fields × Cache :=
  let hour := mod timeMs msPerDay
  let days := (timeMs - hour).tdiv msPerDay
  let ms := hour.tmod msPerSecond
  let hour := (hour - ms).tdiv msPerSecond
  let sec := hour.tmod secPerMinute
  let hour := (hour - sec).tdiv secPerMinute
  let min := hour.tmod secPerMinute
  let hour := (hour - min).tdiv secPerMinute
  let weekday := mod (days + leapNumber 0) dayPerWeek
  let ((year, month, days), cache) := getYearFromDays cache days
  (⟨year, month, days, hour, min, sec, ms, weekday⟩, cache)

/-- `MakeTime`, for a time within a day. -/
def makeTime (hour min sec ms : Double) : Double := do
  let hour ← hour
  let min ← min
  let sec ← sec
  let ms ← ms
  return ((truncateDouble hour * msPerHour + truncateDouble min * msPerMinute +
    truncateDouble sec * msPerSecond + truncateDouble ms : Int) : Rat)

/-- `MakeDate`, for a sum that is a time value. -/
def makeDate (day time : Double) : Double := do
  let day ← day
  let time ← time
  return time + day * msPerDay

/-! ## Counting years -/

/-- A day of the calendar, counted from the beginning of 1970. -/
structure IsDate (days : Int) (date : Int × Int × Int) : Prop where
  month : 0 ≤ date.2.1 ∧ date.2.1 < 12
  day : 1 ≤ date.2.2 ∧ date.2.2 ≤ daysInMonth date.1 date.2.1.toNat
  count : firstOfMonth date.1 date.2.1.toNat + date.2.2 - 1 = days

/-- The year of a century whose years begin in March, `b` centuries into the era. -/
theorem yearOfCentury_spec {b doc q y : Int} (hb : 0 ≤ b ∧ b ≤ 3) (hd : 0 ≤ doc ∧ doc ≤ 36523)
    (hq : q = (doc + 24 * b) / 1460) (hy : y = (doc - q) / 365) :
    0 ≤ y ∧ y ≤ 99 ∧ 365 * y + y / 4 ≤ doc ∧ doc < 365 * (y + 1) + (y + 1) / 4 - (y + 1) / 100 := by
  -- four years have 1461 days, and the quotient by 1460 is one more near the end of the fourth
  obtain ⟨k, r, hdoc, hr⟩ : ∃ k r, doc = 1461 * k + r ∧ 0 ≤ r ∧ r ≤ 1460 :=
    ⟨doc / 1461, doc % 1461, by omega⟩
  have hk : 0 ≤ k ∧ k ≤ 24 := by omega
  have late : (q = k ∧ k + r + 24 * b ≤ 1459) ∨ (q = k + 1 ∧ 1460 ≤ k + r + 24 * b) := by omega
  have year : ∃ i, y = 4 * k + i ∧ 0 ≤ i ∧ i ≤ 3 ∧ 365 * i ≤ r ∧ (r < 365 * (i + 1) ∨ i = 3) := by
    refine ⟨y - 4 * k, by omega, ?_⟩
    rcases late with ⟨rfl, _⟩ | ⟨rfl, _⟩
    · omega
    · omega
  obtain ⟨i, rfl, i0, i3, low, high⟩ := year
  have block : (4 * k + i) / 4 = k := by omega
  rcases high with high | rfl
  · have next : (4 * k + i + 1) / 4 ≥ k := by omega
    have hundred : (4 * k + i + 1) / 100 ≤ (4 * k + i + 1) / 4 - k := by omega
    omega
  · have next : (4 * k + 3 + 1) / 4 = k + 1 := by omega
    have hundred : (4 * k + 3 + 1) / 100 = if k = 24 then 1 else 0 := by split <;> omega
    split at hundred <;> omega

theorem yearOfEra_spec {doe yoe : Int} (low : 0 ≤ doe) (high : doe ≤ 146096)
    (h : yoe = (doe - doe / 1460 + doe / 36524 - doe / 146096) / 365) :
    0 ≤ yoe ∧ yoe < 400 ∧ 365 * yoe + yoe / 4 - yoe / 100 ≤ doe ∧
      doe < 365 * (yoe + 1) + (yoe + 1) / 4 - (yoe + 1) / 100 + (yoe + 1) / 400 := by
  by_cases last : doe = 146096
  · subst last
    omega
  obtain ⟨b, doc, hdoe, hb, hd⟩ :
      ∃ b doc, doe = 36524 * b + doc ∧ (0 ≤ b ∧ b ≤ 3) ∧ 0 ≤ doc ∧ doc ≤ 36523 :=
    ⟨doe / 36524, doe % 36524, by omega⟩
  have q : doe / 1460 = 25 * b + (doc + 24 * b) / 1460 := by omega
  have year : yoe = 100 * b + (doc - (doc + 24 * b) / 1460) / 365 := by omega
  obtain ⟨y0, y99, lower, upper⟩ := yearOfCentury_spec hb hd rfl rfl
  generalize (doc - (doc + 24 * b) / 1460) / 365 = y at *
  have four : (100 * b + y) / 4 = 25 * b + y / 4 ∧ (100 * b + y + 1) / 4 = 25 * b + (y + 1) / 4 := by omega
  have hundred : (100 * b + y) / 100 = b ∧ (100 * b + y + 1) / 100 = b + (y + 1) / 100 := by omega
  have era : 0 ≤ (100 * b + y + 1) / 400 := by omega
  subst year
  omega

theorem firstDay_eq (y : Int) :
    firstDay y = 365 * (y - 1970) + (y - 1969) / 4 - (y - 1901) / 100 + (y - 1601) / 400 := by
  rw [← getDaysFromYear_eq, getDaysFromYear, floorDiv_eq (by decide), floorDiv_eq (by decide),
    floorDiv_eq (by decide)]
  rfl

theorem firstOfMonth_eq (y : Int) {m : Nat} (month : m < 12) : firstOfMonth y m = firstDay y +
    [0, 31, 59, 90, 120, 151, 181, 212, 243, 273, 304, 334].getD m 0 +
      if 2 ≤ m ∧ IsLeapYear y then 1 else 0 := by
  have table : ∀ leap : Bool, ∀ m : Fin 12, (daysFromMonth.getD (if leap then 1 else 0) []).getD m 0 =
      [0, 31, 59, 90, 120, 151, 181, 212, 243, 273, 304, 334].getD m.val (0 : Int) +
        if 2 ≤ m.val ∧ leap = true then 1 else 0 := by decide +kernel
  rw [firstOfMonth, ← daysFromMonth_eq month (isLeap y) isLeap_iff, table (isLeap y) ⟨m, month⟩, Int.add_assoc]
  simp only [isLeap_iff]

theorem firstDay_succ (y : Int) : firstDay (y + 1) = firstDay y + 365 + if IsLeapYear y then 1 else 0 := by
  rw [← getDaysFromYear_eq, getDaysFromYear_succ, getDaysFromYear_eq, daysOfYear_eq]
  split <;> omega

theorem leapYears_succ (y : Int) : (y + 1) / 4 - (y + 1) / 100 + (y + 1) / 400 =
    y / 4 - y / 100 + y / 400 + if IsLeapYear (y + 1) then 1 else 0 := by
  have step := firstDay_succ (y + 1)
  rw [firstDay_eq, firstDay_eq] at step
  omega

/-- The month and the day in a year that begins in March. -/
theorem monthOfYear_spec {y doy mp : Int} (hd : 0 ≤ doy) (hlast : doy ≤ 364 + if IsLeapYear (y + 1) then 1 else 0)
    (hmp : mp = (5 * doy + 2) / 153) :
    IsDate (365 * (y - 1970) + y / 4 - y / 100 + y / 400 - 418 + doy)
      (y + (if mp + (if mp < 10 then 3 else -9) ≤ 2 then 1 else 0), mp + (if mp < 10 then 3 else -9) - 1,
        doy - (153 * mp + 2) / 5 + 1) := by
  have months : 0 ≤ mp ∧ mp ≤ 11 := by split at hlast <;> omega
  have next : firstDay (y + 1) = 365 * (y - 1970) + y / 4 - y / 100 + y / 400 - 112 := by
    rw [firstDay_eq]
    omega
  have leap := firstDay_succ y
  obtain ⟨m, rfl⟩ : ∃ m : Nat, mp = m := ⟨mp.toNat, by omega⟩
  by_cases before : m < 10
  · have shift : (if (m : Int) < 10 then (3 : Int) else -9) = 3 := if_pos (by omega)
    have same : (if (m : Int) + 3 ≤ 2 then (1 : Int) else 0) = 0 := if_neg (by omega)
    rw [shift, same, Int.add_zero, show (m : Int) + 3 - 1 = (m + 2 : Nat) by omega]
    refine ⟨?_, ?_, ?_⟩
    · dsimp only
      omega
    · dsimp only [Int.toNat_natCast]
      have length : daysInMonth y (m + 2) = (153 * (m + 1) + 2) / 5 - (153 * m + 2) / 5 := by
        rw [daysInMonth, if_neg (by omega)]
        interval_cases m <;> rfl
      omega
    · dsimp only [Int.toNat_natCast]
      have sum : ([0, 31, 59, 90, 120, 151, 181, 212, 243, 273, 304, 334].getD (m + 2) 0 : Int) =
          (153 * m + 2) / 5 + 59 := by
        interval_cases m <;> rfl
      rw [firstOfMonth_eq y (by omega), sum, if_congr (and_iff_right (by omega)) rfl rfl]
      omega
  · have shift : (if (m : Int) < 10 then (3 : Int) else -9) = -9 := if_neg (by omega)
    have other : (if (m : Int) + -9 ≤ 2 then (1 : Int) else 0) = 1 := if_pos (by omega)
    rw [shift, other, show (m : Int) + -9 - 1 = (m - 10 : Nat) by omega]
    have first : firstOfMonth (y + 1) (m - 10) = firstDay (y + 1) + (153 * m + 2) / 5 - 306 := by
      rw [firstOfMonth_eq (y + 1) (by omega), if_neg (by omega)]
      obtain rfl | rfl : m = 10 ∨ m = 11 := by omega
      · simp
      · simp [Int.add_sub_assoc]
    have length : daysInMonth (y + 1) (m - 10) = if m = 10 then 31 else if IsLeapYear (y + 1) then 29 else 28 := by
      obtain rfl | rfl : m = 10 ∨ m = 11 := by omega
      · rfl
      · rfl
    refine ⟨?_, ?_, ?_⟩
    · dsimp only
      omega
    · dsimp only [Int.toNat_natCast]
      rw [length]
      split at hlast <;> split <;> omega
    · dsimp only [Int.toNat_natCast]
      rw [first]
      omega

theorem countYearFromDays_spec (days : Int) : IsDate days (countYearFromDays days) := by
  have era : (if days + 719468 ≥ 0 then days + 719468 else days + 719468 - 146097 + 1).tdiv 146097 =
      (days + 719468) / 146097 := by
    rw [Int.tdiv_eq_ediv, show Int.sign 146097 = 1 from rfl]
    split_ifs <;> omega
  rw [countYearFromDays]
  simp only [show days1970To0000 = 719468 from rfl, show daysIn400Years = 146097 from rfl,
    show daysIn4Years = 1460 from rfl, show daysIn100Years = 36524 from rfl, show daysInYear = 365 from rfl,
    show leapNumber 0 = 4 from rfl, show leapNumber 1 = 100 from rfl, show leapNumber 2 = 400 from rfl, era,
    show (146097 : Int) - 1 = 146096 from rfl]
  generalize hera : (days + 719468) / 146097 = era'
  generalize hdoe : days + 719468 - era' * 146097 = doe
  have low : 0 ≤ doe := by omega
  have high : doe ≤ 146096 := by omega
  rw [Int.tdiv_eq_ediv_of_nonneg low, Int.tdiv_eq_ediv_of_nonneg low, Int.tdiv_eq_ediv_of_nonneg low,
    Int.tdiv_eq_ediv_of_nonneg (a := doe - doe / 1460 + doe / 36524 - doe / 146096) (by omega)]
  generalize hyoe : (doe - doe / 1460 + doe / 36524 - doe / 146096) / 365 = yoe
  obtain ⟨y0, y400, lower, upper⟩ := yearOfEra_spec low high hyoe.symm
  rw [Int.tdiv_eq_ediv_of_nonneg y0, Int.tdiv_eq_ediv_of_nonneg y0]
  generalize hdoy : doe - (365 * yoe + yoe / 4 - yoe / 100) = doy
  have d0 : 0 ≤ doy := by omega
  rw [Int.tdiv_eq_ediv_of_nonneg (a := 5 * doy + 2) (by omega)]
  generalize hmp : (5 * doy + 2) / 153 = mp
  rw [Int.tdiv_eq_ediv_of_nonneg (a := 153 * mp + 2) (by omega)]
  have last : doy ≤ 364 + if IsLeapYear (yoe + era' * 400 + 1) then 1 else 0 := by
    have shift : IsLeapYear (yoe + era' * 400 + 1) ↔ IsLeapYear (yoe + 1) := by
      unfold IsLeapYear
      omega
    have longer := leapYears_succ yoe
    rw [if_congr shift rfl rfl]
    omega
  have spec := monthOfYear_spec d0 last hmp.symm
  have count : 365 * (yoe + era' * 400 - 1970) + (yoe + era' * 400) / 4 - (yoe + era' * 400) / 100 +
      (yoe + era' * 400) / 400 - 418 + doy = days := by
    have parts : (yoe + era' * 400) / 4 = yoe / 4 + era' * 100 ∧ (yoe + era' * 400) / 100 = yoe / 100 + era' * 4 ∧
        (yoe + era' * 400) / 400 = era' := by omega
    omega
  rw [count] at spec
  exact spec

/-! ## The calendar day -/

theorem firstDay_strictMono : StrictMono firstDay := by
  refine strictMono_int_of_lt_succ fun y => ?_
  rw [firstDay_succ]
  split <;> omega

theorem daysInMonth_bounds (y : Int) (m : Nat) : 28 ≤ daysInMonth y m ∧ daysInMonth y m ≤ 31 := by
  rw [daysInMonth]
  split_ifs <;> omega

theorem firstOfMonth_succ (y : Int) (m : Nat) : firstOfMonth y (m + 1) = firstOfMonth y m + daysInMonth y m := by
  rw [firstOfMonth, firstOfMonth, Finset.sum_range_succ, add_assoc]

theorem firstOfMonth_mono (y : Int) : Monotone (firstOfMonth y) := by
  refine monotone_nat_of_le_succ fun m => ?_
  rw [firstOfMonth_succ]
  have := daysInMonth_bounds y m
  omega

theorem firstOfMonth_zero (y : Int) : firstOfMonth y 0 = firstDay y := Int.add_zero _

theorem firstOfMonth_twelve (y : Int) : firstOfMonth y 12 = firstDay (y + 1) := by
  rw [← getDaysFromYear_eq, getDaysFromYear_succ, getDaysFromYear_eq]
  rfl

section IsDate

variable {days : Int} {date date' : Int × Int × Int}

theorem IsDate.inMonth (h : IsDate days date) :
    firstOfMonth date.1 date.2.1.toNat ≤ days ∧ days < firstOfMonth date.1 (date.2.1.toNat + 1) := by
  have day := h.day
  have count := h.count
  rw [firstOfMonth_succ]
  omega

theorem IsDate.inYear (h : IsDate days date) : firstDay date.1 ≤ days ∧ days < firstDay (date.1 + 1) := by
  have month := h.month
  obtain ⟨low, high⟩ := h.inMonth
  rw [← firstOfMonth_zero, ← firstOfMonth_twelve]
  exact ⟨(firstOfMonth_mono _ (Nat.zero_le _)).trans low, high.trans_le (firstOfMonth_mono _ (by omega))⟩

/-- A day has one date. -/
theorem IsDate.unique (h : IsDate days date) (h' : IsDate days date') : date = date' := by
  obtain ⟨year, month, day⟩ := date
  obtain ⟨year', month', day'⟩ := date'
  have one : ∀ {a b : Int} {f : Int → Int}, Monotone f → f a ≤ days → days < f (b + 1) → a ≤ b := by
    intro a b f mono low high
    by_contra above
    exact absurd (low.trans_lt high) (not_lt.mpr (mono (by omega)))
  obtain rfl : year = year' := le_antisymm
    (one firstDay_strictMono.monotone h.inYear.1 h'.inYear.2) (one firstDay_strictMono.monotone h'.inYear.1 h.inYear.2)
  obtain ⟨low, high⟩ := h.inMonth
  obtain ⟨low', high'⟩ := h'.inMonth
  have same : month.toNat = month'.toNat := by
    by_contra different
    obtain before | after := Nat.lt_or_gt_of_ne different
    · exact absurd (low'.trans_lt high) (not_lt.mpr (firstOfMonth_mono _ before))
    · exact absurd (low.trans_lt high') (not_lt.mpr (firstOfMonth_mono _ after))
  have count := h.count
  have count' := h'.count
  have inside := h.month
  have inside' := h'.month
  dsimp only at same count count' inside inside'
  obtain rfl : month = month' := by omega
  obtain rfl : day = day' := by omega
  rfl

/-- A year has more days than one. -/
theorem IsDate.year_bounds (h : IsDate days date) (hd : -2 ^ 31 ≤ days ∧ days < 2 ^ 31) :
    -2 ^ 31 ≤ date.1 ∧ date.1 < 2 ^ 31 := by
  obtain ⟨low, high⟩ := h.inYear
  rw [firstDay_eq] at low high
  omega

end IsDate

/-! ## The cache -/

/-- The month that is kept is that of the day that is kept. -/
def Cache.Valid (cache : Cache) : Prop :=
  cache.isCached → IsDate cache.preSumDays (cache.preYear, cache.preMonth, cache.preDays)

theorem emptyCache_valid : emptyCache.Valid := fun empty => absurd empty Bool.false_ne_true

theorem toInt_eq {n : Int} (h : -2 ^ 31 ≤ n ∧ n < 2 ^ 31) : toInt n = n :=
  Int.bmod_eq_of_le (by omega) (by omega)

theorem getYearFromDays_spec {cache : Cache} (hc : cache.Valid) (days : Int) :
    IsDate days (getYearFromDays cache days).1 := by
  rw [getYearFromDays]
  dsimp only
  split
  · next near =>
    obtain ⟨isCached, low, high⟩ := near
    have kept := hc isCached
    have count := kept.count
    have length := (daysInMonth_bounds cache.preYear cache.preMonth.toNat).1
    refine ⟨kept.month, ⟨low, ?_⟩, ?_⟩
    · exact (Int.le_of_lt high).trans length
    · dsimp only at count ⊢
      omega
  · exact countYearFromDays_spec days

theorem getYearFromDays_valid {cache : Cache} (hc : cache.Valid) {days : Int}
    (hd : -2 ^ 31 ≤ days ∧ days < 2 ^ 31) : (getYearFromDays cache days).2.Valid := by
  have spec := getYearFromDays_spec hc days
  intro _
  rw [getYearFromDays] at spec ⊢
  dsimp only at spec ⊢
  split at spec
  · next near =>
    have smaller : daysFebruary = 28 := rfl
    rw [if_pos near]
    dsimp only
    rw [toInt_eq hd, toInt_eq (by omega)]
    exact spec
  · next far =>
    rw [if_neg far]
    generalize countYearFromDays days = date at *
    obtain ⟨year, month, day⟩ := date
    have inside := spec.month
    have fits := spec.day
    have length := (daysInMonth_bounds year month.toNat).2
    dsimp only at inside fits
    change IsDate (toInt days) (toInt year, toInt month, toInt day)
    rw [toInt_eq hd, toInt_eq (spec.year_bounds hd), toInt_eq (n := month) (by omega),
      toInt_eq (n := day) (by omega)]
    exact spec

/-! ## The time value -/

theorem mod_eq {a b : Int} (hb : 0 < b) : mod a b = a % b := by
  rw [(ediv_emod_eq a hb).2, mod]

theorem transferTimeToDate_eq (cache : Cache) (timeMs : Int) :
    transferTimeToDate cache timeMs =
      let r := getYearFromDays cache (timeMs / 86400000)
      (⟨r.1.1, r.1.2.1, r.1.2.2, timeMs % 86400000 / 3600000, timeMs % 3600000 / 60000, timeMs % 60000 / 1000,
        timeMs % 1000, (timeMs / 86400000 + 4) % 7⟩, r.2) := by
  have part (a : Int) {b : Int} (hb : 0 < b) : (a - a % b).tdiv b = a / b := by
    have whole := Int.emod_add_mul_ediv a b
    rw [show a - a % b = b * (a / b) by omega]
    exact Int.mul_tdiv_cancel_left _ hb.ne'
  have t0 : 0 ≤ timeMs % 86400000 := by omega
  rw [transferTimeToDate]
  simp only [show msPerDay = 86400000 from rfl, show msPerSecond = 1000 from rfl, show secPerMinute = 60 from rfl,
    show dayPerWeek = 7 from rfl, show leapNumber 0 = 4 from rfl, mod_eq (show (0 : Int) < 86400000 by decide),
    mod_eq (show (0 : Int) < 7 by decide), part _ (show (0 : Int) < 86400000 by decide),
    part _ (show (0 : Int) < 1000 by decide), part _ (show (0 : Int) < 60 by decide), Int.tmod_eq_emod_of_nonneg t0,
    Int.tmod_eq_emod_of_nonneg (show 0 ≤ timeMs % 86400000 / 1000 by omega),
    Int.tmod_eq_emod_of_nonneg (show 0 ≤ timeMs % 86400000 / 1000 / 60 by omega)]
  congr 2 <;> omega

/-- The number of the day fits into an `int`. -/
def DayFits (timeMs : Int) : Prop := -2 ^ 31 ≤ timeMs / 86400000 ∧ timeMs / 86400000 < 2 ^ 31

/-- The static members after some calls. -/
def afterCalls (earlier : List Int) : Cache :=
  earlier.foldl (fun cache timeMs => (transferTimeToDate cache timeMs).2) emptyCache

theorem afterCalls_valid {earlier : List Int} (h : ∀ timeMs ∈ earlier, DayFits timeMs) : (afterCalls earlier).Valid := by
  rw [afterCalls]
  induction earlier using List.reverseRecOn with
  | nil => exact emptyCache_valid
  | append_singleton earlier timeMs ih =>
    rw [List.foldl_concat, transferTimeToDate_eq]
    exact getYearFromDays_valid (ih fun t ht => h t (List.mem_append_left _ ht)) (h timeMs (by simp))

/-- `MakeDay`, `MakeTime` and `MakeDate` of the fields. -/
def Fields.recombine (fields : Fields) : Double :=
  makeDate (makeDay (some (fields.year : Rat)) (some (fields.month : Rat)) (some (fields.days : Rat)))
    (makeTime (some (fields.hour : Rat)) (some (fields.min : Rat)) (some (fields.sec : Rat)) (some (fields.ms : Rat)))

theorem recombine_eq {fields : Fields} {days : Int} (h : IsDate days (fields.year, fields.month, fields.days)) :
    fields.recombine = some ((days * 86400000 + fields.hour * 3600000 + fields.min * 60000 + fields.sec * 1000 +
      fields.ms : Int) : Rat) := by
  have month := h.month
  have count := h.count
  dsimp only at month count
  have inside : fields.month / 12 = 0 ∧ fields.month % 12 = fields.month := by omega
  have day := (makeDay_iff fields.year fields.month fields.days).mpr (by simp [inside.1])
  rw [inside.1, inside.2, Int.add_zero, count] at day
  rw [Fields.recombine, day, makeTime]
  simp only [Option.bind_eq_bind, Option.bind_some, truncateDouble_intCast, show msPerHour = 3600000 from rfl,
    show msPerMinute = 60000 from rfl, show msPerSecond = 1000 from rfl, Option.pure_def]
  rw [makeDate]
  simp only [Option.bind_eq_bind, Option.bind_some, show msPerDay = 86400000 from rfl, Option.pure_def]
  push_cast
  congr 1
  ring

/-- After calls on days that fit into an `int`, the fields are those of the day and of the time in it, and are put
    together to the time value again. -/
theorem transferTimeToDate_spec (earlier : List Int) (h : ∀ timeMs ∈ earlier, DayFits timeMs) (t : Int) :
    let fields := (transferTimeToDate (afterCalls earlier) t).1
    fields = (transferTimeToDate emptyCache t).1 ∧
      IsDate (t / 86400000) (fields.year, fields.month, fields.days) ∧ fields.weekday = (t / 86400000 + 4) % 7 ∧
      fields.hour = t % 86400000 / 3600000 ∧ fields.min = t % 3600000 / 60000 ∧ fields.sec = t % 60000 / 1000 ∧
      fields.ms = t % 1000 ∧ fields.recombine = some (t : Rat) := by
  have date := getYearFromDays_spec (afterCalls_valid h) (t / 86400000)
  have fresh := getYearFromDays_spec emptyCache_valid (t / 86400000)
  dsimp only
  have same : (transferTimeToDate (afterCalls earlier) t).1 = (transferTimeToDate emptyCache t).1 := by
    rw [transferTimeToDate_eq, transferTimeToDate_eq]
    dsimp only
    rw [date.unique fresh]
  have today : IsDate (t / 86400000) ((transferTimeToDate (afterCalls earlier) t).1.year,
      (transferTimeToDate (afterCalls earlier) t).1.month, (transferTimeToDate (afterCalls earlier) t).1.days) := by
    rw [transferTimeToDate_eq]
    exact date
  refine ⟨same, today, ?_⟩
  rw [recombine_eq today, transferTimeToDate_eq]
  refine ⟨rfl, rfl, rfl, rfl, rfl, ?_⟩
  dsimp only
  congr 2
  omega

/-- The leap day of 2000, after a call on another day of that month. -/
theorem transferTimeToDate_leapDay :
    let fields := (transferTimeToDate (afterCalls [951350400000]) 951782400000).1
    fields = (transferTimeToDate emptyCache 951782400000).1 ∧
      IsDate (951782400000 / 86400000) (fields.year, fields.month, fields.days) ∧
      fields.weekday = (951782400000 / 86400000 + 4) % 7 ∧
      fields.hour = 951782400000 % 86400000 / 3600000 ∧ fields.min = 951782400000 % 3600000 / 60000 ∧
      fields.sec = 951782400000 % 60000 / 1000 ∧ fields.ms = 951782400000 % 1000 ∧
      fields.recombine = some ((951782400000 : Int) : Rat) :=
  transferTimeToDate_spec [951350400000] (by simp [DayFits]) 951782400000

/-- The number of the day of the earlier call is cut to 0, and the beginning of 1970 seems to be of its month. -/
theorem transferTimeToDate_cut : ¬∀ earlier : List Int, ∀ t : Int, -8640000000000000 ≤ t → t ≤ 8640000000000000 →
    (transferTimeToDate (afterCalls earlier) t).1 = (transferTimeToDate emptyCache t).1 := by
  intro h
  exact absurd (h [371085174374400000] 0 (by decide) (by decide)) (by decide +kernel)

/-- A time value of the language: at most 100000000 days before or after the beginning of 1970. -/
def IsTimeValue (t : Int) : Prop := -8640000000000000 ≤ t ∧ t ≤ 8640000000000000

/-- The time of the fields on a day, in milliseconds. -/
def Fields.timeOn (fields : Fields) (days : Int) : Int :=
  days * 86400000 + fields.hour * 3600000 + fields.min * 60000 + fields.sec * 1000 + fields.ms

/-- The fields of a day of the calendar and of a time in it come back from their time value. -/
theorem transferTimeToDate_recombine (earlier : List Int) (h : ∀ timeMs ∈ earlier, DayFits timeMs) (fields : Fields)
    (days : Int) (date : IsDate days (fields.year, fields.month, fields.days)) (today : fields.weekday = (days + 4) % 7)
    (clock : (0 ≤ fields.hour ∧ fields.hour < 24) ∧ (0 ≤ fields.min ∧ fields.min < 60) ∧
      (0 ≤ fields.sec ∧ fields.sec < 60) ∧ 0 ≤ fields.ms ∧ fields.ms < 1000)
    (range : IsTimeValue (fields.timeOn days)) :
    ∃ t : Int, IsTimeValue t ∧ fields.recombine = some (t : Rat) ∧
      (transferTimeToDate (afterCalls earlier) t).1 = fields := by
  obtain ⟨year, month, day, hour, min, sec, ms, weekday⟩ := fields
  refine ⟨_, range, recombine_eq date, ?_⟩
  dsimp only [Fields.timeOn] at *
  have same : (days * 86400000 + hour * 3600000 + min * 60000 + sec * 1000 + ms) / 86400000 = days := by omega
  rw [transferTimeToDate_eq, same]
  dsimp only
  rw [(getYearFromDays_spec (afterCalls_valid h) days).unique date]
  congr 1 <;> omega

theorem transferTimeToDate_recombine_leapDay :
    ∃ t : Int, IsTimeValue t ∧ (⟨2000, 1, 29, 23, 59, 59, 999, 2⟩ : Fields).recombine = some (t : Rat) ∧
      (transferTimeToDate (afterCalls [951350400000]) t).1 = ⟨2000, 1, 29, 23, 59, 59, 999, 2⟩ :=
  transferTimeToDate_recombine _ (by simp [DayFits]) _ 11016 ⟨by decide, by decide, by decide⟩ rfl (by decide)
    ⟨by decide, by decide⟩

end Date

end ArkRuntime
