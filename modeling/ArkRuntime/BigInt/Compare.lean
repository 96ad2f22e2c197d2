import ArkRuntime.BigInt.Canonical

/-!
# `Equal`, `Compare` and `AbsolutelyCompare`

On canonical BigInts, which look at sign, length and digits only, these decide the equality and the
order of the numbers.
-/

namespace ArkRuntime

namespace BigInt

variable {x y : BigInt} {xs ys : List UInt32} {i n : Nat}

/-- The order of two integers, as `Compare` reports it. -/
def orderOf (a b : Int) : ComparisonResult :=
  if a < b then .less else if a = b then .equal else .great

theorem orderOf_of_lt {a b : Int} (less : a < b) : orderOf a b = .less := if_pos less

theorem orderOf_of_gt {a b : Int} (greater : b < a) : orderOf a b = .great := by
  rw [orderOf, if_neg (by omega), if_neg (by omega)]

theorem orderOf_self (a : Int) : orderOf a a = .equal := by
  rw [orderOf, if_neg (by omega), if_pos rfl]

/-! ## The loops -/

theorem equalDigits_spec (n i : Nat) (endX : i + n = xs.length) (endY : i + n = ys.length) :
    equalDigits xs ys i n = .ok (decide (xs.drop i = ys.drop i)) := by
  induction n generalizing i with
  | zero =>
    rw [List.drop_eq_nil_of_le (by omega), List.drop_eq_nil_of_le (by omega)]
    rfl
  | succ n ih =>
    have insideX : i < xs.length := by omega
    have insideY : i < ys.length := by omega
    rw [List.drop_eq_getElem_cons insideX, List.drop_eq_getElem_cons insideY]
    simp only [equalDigits, getDigit_of_lt insideX, getDigit_of_lt insideY, ok_bind, pure_eq_ok]
    by_cases same : xs[i] = ys[i]
    · rw [if_neg (by simpa using same), ih (i + 1) (by omega) (by omega)]
      simp only [List.cons.injEq, same, true_and]
    · rw [if_pos same]
      simp only [List.cons.injEq, same, false_and, decide_false]

/-- The loop stops at the highest digit that differs. -/
theorem highestDifferent_spec (n : Nat) (insideX : n ≤ xs.length) (insideY : n ≤ ys.length) :
    (highestDifferent xs ys n = .ok none ∧ ∀ k < n, xs[k]? = ys[k]?) ∨
      ∃ index a b, highestDifferent xs ys n = .ok (some index) ∧ index < n ∧
        xs[index]? = some a ∧ ys[index]? = some b ∧ a ≠ b ∧
        ∀ k, index < k → k < n → xs[k]? = ys[k]? := by
  induction n with
  | zero => exact .inl ⟨rfl, fun k below => by omega⟩
  | succ n ih =>
    have readX : xs[n]? = some xs[n] := List.getElem?_eq_getElem insideX
    have readY : ys[n]? = some ys[n] := List.getElem?_eq_getElem insideY
    by_cases same : xs[n] = ys[n]
    · have step : highestDifferent xs ys (n + 1) = highestDifferent xs ys n := by
        simp [highestDifferent, getDigit_eq readX, getDigit_eq readY, same]
      have atN : xs[n]? = ys[n]? := by rw [readX, readY, same]
      rw [step]
      rcases ih (by omega) (by omega) with ⟨none, agree⟩ | ⟨index, a, b, found, below, rest⟩
      · refine .inl ⟨none, fun k less => ?_⟩
        rcases Nat.lt_succ_iff_lt_or_eq.mp less with less | rfl
        · exact agree k less
        · exact atN
      · refine .inr ⟨index, a, b, found, by omega, rest.1, rest.2.1, rest.2.2.1, ?_⟩
        intro k above less
        rcases Nat.lt_succ_iff_lt_or_eq.mp less with less | rfl
        · exact rest.2.2.2 k above less
        · exact atN
    · refine .inr ⟨n, xs[n], ys[n], ?_, Nat.lt_succ_self n, readX, readY, same, ?_⟩
      · simp [highestDifferent, getDigit_eq readX, getDigit_eq readY, same]
      · intro k above less
        omega

theorem drop_eq_of_agree (sameLength : xs.length = ys.length)
    (agree : ∀ k, i ≤ k → k < xs.length → xs[k]? = ys[k]?) : xs.drop i = ys.drop i := by
  apply List.ext_getElem?
  intro k
  rw [List.getElem?_drop, List.getElem?_drop]
  rcases Nat.lt_or_ge (i + k) xs.length with inside | outside
  · exact agree (i + k) (by omega) inside
  · rw [List.getElem?_eq_none outside, List.getElem?_eq_none (by omega)]

/-- Two numbers of the same length, by their highest different digit. -/
theorem magnitude_lt_of_digit_lt {a b : UInt32} (sameLength : xs.length = ys.length)
    (readX : xs[i]? = some a) (readY : ys[i]? = some b) (less : a < b)
    (agree : ∀ k, i < k → k < xs.length → xs[k]? = ys[k]?) : magnitude xs < magnitude ys :=
  words.value_lt_of_digit_lt readX readY
    (drop_eq_of_agree sameLength fun k above inside => agree k (by omega) inside)
    (UInt32.lt_iff_toNat_lt.mp less)

/-! ## The functions -/

theorem magnitude_lt_of_length_lt (canonical : y.Canonical) (shorter : x.length < y.length)
    (nonempty : 0 < x.length) : magnitude x.digits < magnitude y.digits := by
  have notZero : y.digits ≠ [0] := fun eq => by
    have : y.length = 1 := by rw [length, eq]; rfl
    omega
  obtain ⟨d, top, positive⟩ := canonical.exists_top notZero
  exact words.value_lt_of_length_lt shorter top positive

theorem absolutelyCompare_spec (cx : x.Canonical) (cy : y.Canonical) :
    absolutelyCompare x y = .ok (orderOf (magnitude x.digits) (magnitude y.digits)) := by
  unfold absolutelyCompare
  rcases Nat.lt_trichotomy x.length y.length with shorter | same | longer
  · have := magnitude_lt_of_length_lt cy shorter cx.positive
    rw [if_neg (by omega), if_pos shorter, orderOf_of_lt (by omega)]
  · rw [if_neg (by omega), if_neg (by omega)]
    have sameLength : x.digits.length = y.digits.length := same
    rcases highestDifferent_spec x.length (Nat.le_refl _) (Nat.le_of_eq same) with
      ⟨none, agree⟩ | ⟨index, a, b, found, below, readX, readY, different, agree⟩
    · have eq : x.digits = y.digits := by
        apply List.ext_getElem?
        intro k
        rcases Nat.lt_or_ge k x.digits.length with inside | outside
        · exact agree k inside
        · rw [List.getElem?_eq_none outside, List.getElem?_eq_none (by omega)]
      rw [none, eq, orderOf_self]
      rfl
    · rw [found]
      simp only [ok_bind, getDigit_eq readX, getDigit_eq readY, pure_eq_ok]
      by_cases greater : a > b
      · have := magnitude_lt_of_digit_lt sameLength.symm readY readX greater fun k above inside =>
          (agree k above (by rw [length]; omega)).symm
        rw [if_pos greater, orderOf_of_gt (by omega)]
      · have less : a < b := UInt32.lt_of_le_of_ne (UInt32.not_lt.mp greater) different
        have := magnitude_lt_of_digit_lt sameLength readX readY less agree
        rw [if_neg greater, orderOf_of_lt (by omega)]
  · have := magnitude_lt_of_length_lt cx longer cy.positive
    rw [if_pos longer, orderOf_of_gt (by omega)]

theorem compare_spec (cx : x.Canonical) (cy : y.Canonical) :
    compare x y = .ok (orderOf x.toInt y.toInt) := by
  unfold compare
  by_cases sameSign : x.sign = y.sign
  · rw [if_neg (by simpa using sameSign), absolutelyCompare_spec cx cy, ok_bind, pure_eq_ok]
    congr 1
    rcases positive : x.sign with _ | _
    · rw [toInt_of_not_sign positive, toInt_of_not_sign (sameSign ▸ positive)]
      simp
    · rw [toInt_of_sign positive, toInt_of_sign (sameSign ▸ positive)]
      rcases Int.lt_trichotomy (magnitude x.digits) (magnitude y.digits) with less | same | greater
      · rw [orderOf_of_lt less, orderOf_of_gt (by omega)]
        rfl
      · rw [same, orderOf_self, orderOf_self]
        rfl
      · rw [orderOf_of_gt greater, orderOf_of_lt (by omega)]
        rfl
  · rw [if_pos sameSign]
    congr 1
    rcases positive : x.sign with _ | _
    · have negative : y.sign = true := by
        cases eq : y.sign
        · exact absurd (positive.trans eq.symm) sameSign
        · rfl
      have := cy.sign_iff.mp negative
      rw [toInt_of_not_sign positive]
      exact (orderOf_of_gt (by omega)).symm
    · have notNegative : y.sign = false := by
        cases eq : y.sign
        · rfl
        · exact absurd (positive.trans eq.symm) sameSign
      have := cx.sign_iff.mp positive
      rw [toInt_of_not_sign notNegative]
      exact (orderOf_of_lt (by omega)).symm

theorem equal_spec (cx : x.Canonical) (cy : y.Canonical) :
    equal x y = .ok (decide (x.toInt = y.toInt)) := by
  have sameNumber : x.toInt = y.toInt ↔ x = y := ⟨cx.ext cy, fun eq => by rw [eq]⟩
  unfold equal
  by_cases different : x.sign ≠ y.sign ∨ x.length ≠ y.length
  · have : x ≠ y := by
      rintro rfl
      simp at different
    rw [if_pos different]
    simp [sameNumber, this]
  · have sameSign : x.sign = y.sign := by
      by_contra no
      exact different (.inl no)
    have sameLength : x.length = y.length := by
      by_contra no
      exact different (.inr no)
    rw [if_neg different, equalDigits_spec x.length 0 (by rw [length]; omega)
      (by rw [sameLength, length]; omega)]
    congr 1
    rw [decide_eq_decide, sameNumber]
    cases x
    cases y
    simp_all

end BigInt

end ArkRuntime
