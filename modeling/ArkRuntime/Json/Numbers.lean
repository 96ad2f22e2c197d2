import ArkRuntime.Json.Strings
import Mathlib.Data.List.Induction

/-!
# Numbers of the JSON parser

The checks of `ParseNumber` on the characters of a token. They take the numbers of the grammar and two kinds of
others: `1.e5`, without a digit behind the point, since `IsDecimalsLegal` asks for one only at the end of the
token; and `1e5x`, since the loop of `IsExponentLegal` leaves out the last character of the token.
-/

namespace ArkRuntime

namespace Json

variable {mem : List Nat}

/-! ## The checks on lists -/

def isExponentChar (c : Nat) : Bool := c = 0x65 || c = 0x45

def isSign (c : Nat) : Bool := c = 0x2D || c = 0x2B

/-- `IsDecimalsLegal` on the characters behind the point. -/
def decimals : Bool → List Nat → Bool
  | _, [] => true
  | hasExponent, c :: t =>
      if isDigit c then decimals hasExponent t
      else if isExponentChar c && !hasExponent then
        match t with
        | [] => false
        | d :: t' =>
            if isDigit d then decimals true t'
            else if isSign d then
              match t' with
              | [] => false
              | d' :: t'' => isDigit d' && decimals true t''
            else false
      else false

/-- `IsExponentLegal` on the characters behind `e`. -/
def exponent : List Nat → Bool
  | [] => false
  | d :: t =>
      if isDigit d then t.dropLast.all isDigit
      else if isSign d then
        match t with
        | [] => false
        | d' :: t' => isDigit d' && t'.dropLast.all isDigit
      else false

/-- What may be behind the integer part. -/
def numberTail : List Nat → Bool
  | [] => true
  | c :: t =>
      if c = 0x2E then !t.isEmpty && decimals false t
      else if isExponentChar c then exponent t
      else false

def nonZeroTail : List Nat → Bool
  | [] => true
  | c :: t => if isDigit c then nonZeroTail t else numberTail (c :: t)

def unsignedNumber : List Nat → Bool
  | [] => false
  | d :: t => if d = 0x30 then numberTail t else if 0x31 ≤ d ∧ d ≤ 0x39 then nonZeroTail t else false

/-- The checks of `ParseNumber`. -/
def codeNumber : List Nat → Bool
  | [] => false
  | c :: t => if c = 0x2D then unsignedNumber t else unsignedNumber (c :: t)

/-! ## The checks on memory -/

variable {c end_ n e : Nat} {s t u : List Nat}

theorem isExponentChar_iff : isExponentChar c = true ↔ c = 0x65 ∨ c = 0x45 := by
  simp [isExponentChar]

theorem isSign_iff : isSign c = true ↔ c = 0x2D ∨ c = 0x2B := by
  simp [isSign]

theorem slice_dropLast (i j : Nat) : (slice mem i (j + 1)).dropLast = slice mem i j := by
  rcases Nat.lt_or_ge j i with less | ge
  · rw [slice, slice, show j + 1 - i = 0 by omega, show j - i = 0 by omega]
    rfl
  · rw [slice, slice, show j + 1 - i = j - i + 1 by omega, List.range'_concat, List.map_append]
    simp

theorem decimals_nil (hasExponent : Bool) : decimals hasExponent [] = true := by
  cases hasExponent <;> rfl

theorem decimals_cons (hasExponent : Bool) (c : Nat) (t : List Nat) :
    decimals hasExponent (c :: t) =
      if isDigit c then decimals hasExponent t
      else if isExponentChar c && !hasExponent then
        match t with
        | [] => false
        | d :: t' =>
            if isDigit d then decimals true t'
            else if isSign d then
              match t' with
              | [] => false
              | d' :: t'' => isDigit d' && decimals true t''
            else false
      else false := by
  rw [decimals.eq_def]

theorem exponent_cons (d : Nat) (t : List Nat) :
    exponent (d :: t) =
      if isDigit d then t.dropLast.all isDigit
      else if isSign d then
        match t with
        | [] => false
        | d' :: t' => isDigit d' && t'.dropLast.all isDigit
      else false := by
  rw [exponent.eq_def]

/-- Behind the end the loop does not come back to it. -/
theorem decimalsFrom_behind {b : Bool} (behind : end_ < c) : decimalsFrom mem end_ n c b = none := by
  induction n generalizing c b with
  | zero => rfl
  | succ n ih =>
    rw [decimalsFrom, if_neg (by omega)]
    split
    · exact ih (by omega)
    · split
      · split
        · rfl
        · cases run : isExponentNumber mem end_ (c + 2) with
          | none => rfl
          | some c' =>
            have ahead : c + 2 ≤ c' := by
              rw [isExponentNumber] at run
              split at run
              · cases run
                omega
              · split at run
                · split at run
                  · cases run
                  · split at run
                    · cases run
                      omega
                    · cases run
                · cases run
            exact ih (by omega)
      · rfl

theorem decimalsFrom_eq {b : Bool} (le : c ≤ end_) (enough : end_ < c + n) :
    decimalsFrom mem end_ n c b = if decimals b (slice mem (c + 1) (end_ + 1)) then some end_ else none := by
  induction n generalizing c b with
  | zero => omega
  | succ n ih =>
    rw [decimalsFrom]
    by_cases same : c = end_
    · rw [if_pos same, same, slice_self, decimals_nil, if_pos rfl]
    · rw [if_neg same, slice_cons (show c + 1 < end_ + 1 by omega), decimals_cons]
      by_cases digit : isDigit (unit mem (c + 1)) = true
      · rw [if_pos digit, if_pos digit, ih (by omega) (by omega)]
      · rw [if_neg digit, if_neg digit]
        by_cases letter : unit mem (c + 1) = 0x65 ∨ unit mem (c + 1) = 0x45
        · rw [if_pos letter, isExponentChar_iff.mpr letter]
          cases b with
          | true => simp
          | false =>
            simp only [Bool.false_eq_true, false_or, Bool.not_false, Bool.and_self, if_true]
            by_cases last : c + 1 = end_
            · rw [if_pos last, last, slice_self]
              rfl
            · have second : slice mem (c + 1 + 1) (end_ + 1) = unit mem (c + 2) :: slice mem (c + 3) (end_ + 1) :=
                slice_cons (by omega)
              rw [if_neg last, isExponentNumber]
              by_cases digit' : isDigit (unit mem (c + 2)) = true
              · simp only [second, digit', if_true, Option.bind_eq_bind, Option.bind_some]
                exact ih (by omega) (by omega)
              · by_cases sign : unit mem (c + 2) = 0x2D ∨ unit mem (c + 2) = 0x2B
                · simp only [second, digit', isSign_iff.mpr sign, sign, if_true, Bool.false_eq_true, if_false]
                  by_cases last' : c + 2 = end_
                  · simp [last', slice_self, show slice mem (c + 3) (end_ + 1) = [] by rw [← last']; exact slice_self _]
                  · have third : slice mem (c + 3) (end_ + 1) = unit mem (c + 3) :: slice mem (c + 4) (end_ + 1) :=
                      slice_cons (by omega)
                    by_cases digit'' : isDigit (unit mem (c + 3)) = true
                    · simp only [last', third, digit'', if_true, if_false, Option.bind_eq_bind, Option.bind_some,
                        Bool.true_and]
                      exact ih (by omega) (by omega)
                    · simp [last', third, digit'']
                · have other : isSign (unit mem (c + 2)) = false := by rwa [← Bool.not_eq_true, isSign_iff]
                  simp [second, digit', sign, other]
        · rw [if_neg letter]
          have other : isExponentChar (unit mem (c + 1)) = false := by
            rwa [← Bool.not_eq_true, isExponentChar_iff]
          simp [other]

theorem isDecimalsLegal_eq (le : c ≤ end_) (inside : end_ < mem.length) :
    isDecimalsLegal mem end_ c false =
      if !(slice mem (c + 1) (end_ + 1)).isEmpty && decimals false (slice mem (c + 1) (end_ + 1)) then some end_
      else none := by
  rw [isDecimalsLegal]
  by_cases same : c = end_
  · rw [if_pos same, same, slice_self, decimalsFrom_behind (by omega)]
    simp
  · rw [if_neg same, decimalsFrom_eq le (by omega), slice_cons (by omega)]
    simp

/-- The loop over the digits of the exponent reaches the end of the token. -/
theorem scan_digits_eq_end (le : c ≤ end_) :
    scan mem isDigit end_ c = end_ ↔ (slice mem c end_).all isDigit = true := by
  rw [List.all_eq_true]
  constructor
  · intro same x inside
    obtain ⟨k, low, high, rfl⟩ := mem_slice.mp inside
    have spec := scan_spec mem (p := isDigit) (by decide) end_ c
    rw [same] at spec
    exact (spec.2.1 k low high).2
  · intro all
    refine scan_eq (by decide) le (fun i low high => ⟨by omega, ?_⟩) (.inl rfl)
    exact all _ (mem_slice.mpr ⟨i, low, high, rfl⟩)

theorem isExponentLegal_eq (le : c ≤ end_) :
    isExponentLegal mem end_ c false = if exponent (slice mem (c + 1) (end_ + 1)) then some end_ else none := by
  have digits : ∀ d, d ≤ end_ → isDigit (unit mem d) = true →
      (if scan mem isDigit end_ d = end_ then (return scan mem isDigit end_ d : Option Nat) else none) =
        if (slice mem (d + 1) (end_ + 1)).dropLast.all isDigit then some end_ else none := by
    intro d inside digit
    rw [slice_dropLast]
    have same : (slice mem d end_).all isDigit = (slice mem (d + 1) end_).all isDigit := by
      rcases Nat.eq_or_lt_of_le inside with rfl | less
      · rw [slice, slice, Nat.sub_self, show d - (d + 1) = 0 by omega]
        rfl
      · rw [slice_cons less, List.all_cons, digit, Bool.true_and]
    by_cases all : scan mem isDigit end_ d = end_
    · rw [if_pos all, all, ← same, (scan_digits_eq_end inside).mp all]
      rfl
    · rw [if_neg all, ← same, if_neg fun yes => all ((scan_digits_eq_end inside).mpr yes)]
  rw [isExponentLegal]
  by_cases same : c = end_
  · rw [if_pos (.inr same), same, slice_self]
    rfl
  · have first : slice mem (c + 1) (end_ + 1) = unit mem (c + 1) :: slice mem (c + 2) (end_ + 1) :=
      slice_cons (by omega)
    rw [if_neg (by simpa using same), isExponentNumber, first, exponent_cons]
    by_cases digit : isDigit (unit mem (c + 1)) = true
    · rw [if_pos digit, if_pos digit, Option.bind_eq_bind, Option.bind_some]
      exact digits (c + 1) (by omega) digit
    · rw [if_neg digit, if_neg digit]
      by_cases sign : unit mem (c + 1) = 0x2D ∨ unit mem (c + 1) = 0x2B
      · simp only [sign, isSign_iff.mpr sign, if_true]
        by_cases last : c + 1 = end_
        · simp [last, show slice mem (c + 2) (end_ + 1) = [] by rw [← last]; exact slice_self _]
        · have second : slice mem (c + 2) (end_ + 1) = unit mem (c + 2) :: slice mem (c + 3) (end_ + 1) :=
            slice_cons (by omega)
          by_cases digit' : isDigit (unit mem (c + 2)) = true
          · simp only [last, second, digit', if_true, if_false, Option.bind_eq_bind, Option.bind_some, Bool.true_and]
            exact digits (c + 2) (by omega) digit'
          · simp [last, second, digit']
      · have other : isSign (unit mem (c + 1)) = false := by rwa [← Bool.not_eq_true, isSign_iff]
        simp [sign, other]

theorem checkZeroBeginNumber_eq (le : c ≤ end_) (inside : end_ < mem.length) :
    checkZeroBeginNumber mem end_ c = numberTail (slice mem (c + 1) (end_ + 1)) := by
  rw [checkZeroBeginNumber]
  by_cases same : c = end_
  · rw [if_pos same, same, slice_self]
    rfl
  · rw [if_neg same, slice_cons (show c + 1 < end_ + 1 by omega), numberTail]
    by_cases point : unit mem (c + 1) = 0x2E
    · rw [if_pos point, if_pos point, isDecimalsLegal_eq (by omega) inside]
      split <;> simp_all
    · rw [if_neg point, if_neg point]
      by_cases letter : unit mem (c + 1) = 0x65 ∨ unit mem (c + 1) = 0x45
      · rw [if_pos letter, if_pos (isExponentChar_iff.mpr letter), isExponentLegal_eq (by omega)]
        split <;> simp_all
      · rw [if_neg letter, if_neg (by rwa [isExponentChar_iff])]

theorem nonZeroFrom_eq (le : c ≤ end_) (inside : end_ < mem.length) (enough : end_ < c + n) :
    nonZeroFrom mem end_ n c = nonZeroTail (slice mem (c + 1) (end_ + 1)) := by
  have last : ∀ n, 0 < n → nonZeroFrom mem end_ n end_ = true := by
    intro n positive
    obtain ⟨n, rfl⟩ : ∃ m, n = m + 1 := ⟨n - 1, by omega⟩
    rw [nonZeroFrom, if_pos rfl]
  induction n generalizing c with
  | zero => omega
  | succ n ih =>
    rw [nonZeroFrom]
    by_cases same : c = end_
    · rw [if_pos same, same, slice_self]
      rfl
    · rw [if_neg same, slice_cons (show c + 1 < end_ + 1 by omega), nonZeroTail]
      by_cases digit : isDigit (unit mem (c + 1)) = true
      · rw [if_pos digit, if_pos digit, ih (by omega) (by omega)]
      · rw [if_neg digit, if_neg digit, numberTail]
        by_cases point : unit mem (c + 1) = 0x2E
        · rw [if_pos point, if_pos point, isDecimalsLegal_eq (by omega) inside]
          split
          case h_1 none => simp_all
          case h_2 some =>
            split at some
            · cases some
              simp_all [last n (by omega)]
            · cases some
        · rw [if_neg point, if_neg point]
          by_cases letter : unit mem (c + 1) = 0x65 ∨ unit mem (c + 1) = 0x45
          · rw [if_pos letter, if_pos (isExponentChar_iff.mpr letter), isExponentLegal_eq (by omega)]
            split
            case h_1 none => simp_all
            case h_2 some =>
              split at some
              · cases some
                simp_all [last n (by omega)]
              · cases some
          · rw [if_neg letter, if_neg (by rwa [isExponentChar_iff])]

/-- The checks see the characters of the token only. -/
theorem checkNumber_eq (le : c ≤ end_) (inside : end_ < mem.length) :
    checkNumber mem end_ c = codeNumber (slice mem c (end_ + 1)) := by
  have unsigned : ∀ c, c ≤ end_ →
      (if unit mem c = 0x30 then checkZeroBeginNumber mem end_ c
        else if 0x31 ≤ unit mem c ∧ unit mem c ≤ 0x39 then checkNonZeroBeginNumber mem end_ c else false) =
      unsignedNumber (slice mem c (end_ + 1)) := by
    intro c le
    rw [slice_cons (show c < end_ + 1 by omega), unsignedNumber, checkZeroBeginNumber_eq le inside,
      checkNonZeroBeginNumber, nonZeroFrom_eq le inside (by omega)]
  rw [checkNumber]
  by_cases minus : unit mem c = 0x2D
  · rw [slice_cons (show c < end_ + 1 by omega), codeNumber]
    by_cases same : c = end_
    · rw [if_pos ⟨minus, same⟩, if_pos minus, same, slice_self]
      rfl
    · rw [if_neg fun both => same both.2, if_pos minus, if_pos minus]
      exact unsigned (c + 1) (by omega)
  · rw [if_neg fun both => minus both.1, if_neg minus]
    have rest := unsigned c le
    rw [slice_cons (show c < end_ + 1 by omega)] at rest ⊢
    rw [codeNumber, if_neg minus]
    exact rest

/-! ## Which tokens they take -/

/-- A token that passes the checks and is not a number of the grammar. -/
inductive OddNumber : List Nat → Prop where
  | point {minus int exp : List Nat} (sign : IsMinus minus) (digits : IsInt int) (isExp : IsExp exp) :
      OddNumber (minus ++ int ++ 0x2E :: exp)
  | behind {minus int exp : List Nat} {c : Nat} (sign : IsMinus minus) (digits : IsInt int) (isExp : IsExp exp)
      (digit : isDigit c = false) (space : isSpace c = false) : OddNumber (minus ++ int ++ exp ++ [c])

theorem isDigits_nil : IsDigits [] := fun _ no => absurd no List.not_mem_nil

theorem isDigits_cons : IsDigits (c :: s) ↔ isDigit c = true ∧ IsDigits s :=
  List.forall_mem_cons

theorem decimals_true_iff : decimals true t = true ↔ IsDigits t := by
  induction t with
  | nil => exact ⟨fun _ => isDigits_nil, fun _ => rfl⟩
  | cons c t ih =>
    rw [decimals_cons, isDigits_cons, ← ih]
    by_cases digit : isDigit c = true
    · simp [digit]
    · simp [digit]

theorem not_digit_of_exponentChar (letter : isExponentChar c = true) : isDigit c = false := by
  rcases isExponentChar_iff.mp letter with rfl | rfl <;> decide

theorem not_digit_of_sign (sign : isSign c = true) : isDigit c = false := by
  rcases isSign_iff.mp sign with rfl | rfl <;> decide

/-- The characters behind `e`. -/
theorem isExp_cons_iff (letter : isExponentChar e = true) :
    IsExp (e :: t) ↔ (∃ d ds, t = d :: ds ∧ isDigit d = true ∧ IsDigits ds) ∨
      ∃ sign d ds, t = sign :: d :: ds ∧ isSign sign = true ∧ isDigit d = true ∧ IsDigits ds := by
  constructor
  · rintro ⟨e', sign, d, ds, split, _, isSign', digit, digits⟩
    rw [List.cons.injEq] at split
    obtain ⟨_, rfl⟩ := split
    rcases isSign' with rfl | rfl | rfl
    · exact .inl ⟨d, ds, rfl, digit, digits⟩
    · exact .inr ⟨0x2B, d, ds, rfl, rfl, digit, digits⟩
    · exact .inr ⟨0x2D, d, ds, rfl, rfl, digit, digits⟩
  · rintro (⟨d, ds, rfl, digit, digits⟩ | ⟨sign, d, ds, rfl, isSign', digit, digits⟩)
    · exact ⟨e, [], d, ds, rfl, isExponentChar_iff.mp letter, .inl rfl, digit, digits⟩
    · refine ⟨e, [sign], d, ds, rfl, isExponentChar_iff.mp letter, .inr ?_, digit, digits⟩
      rcases isSign_iff.mp isSign' with rfl | rfl
      · exact .inr rfl
      · exact .inl rfl

theorem isExp_head {x : List Nat} (isExp : IsExp x) : ∃ e t, x = e :: t ∧ isExponentChar e = true := by
  obtain ⟨e, sign, d, ds, rfl, letter, _⟩ := isExp
  exact ⟨e, _, rfl, isExponentChar_iff.mpr letter⟩

/-- The exponent behind decimals. -/
theorem decimals_exp_iff (letter : isExponentChar e = true) :
    decimals false (e :: t) = true ↔ IsExp (e :: t) := by
  have digit := not_digit_of_exponentChar letter
  rw [decimals_cons, isExp_cons_iff letter]
  simp only [digit, letter, Bool.false_eq_true, if_false, Bool.not_false, Bool.and_self, if_true]
  cases t with
  | nil => simp
  | cons d t =>
    by_cases digit' : isDigit d = true
    · have sign : isSign d = false := by
        by_contra yes
        rw [Bool.not_eq_false] at yes
        rw [not_digit_of_sign yes] at digit'
        cases digit'
      simp [digit', sign, decimals_true_iff]
    · simp only [digit', Bool.false_eq_true, if_false]
      by_cases sign : isSign d = true
      · cases t with
        | nil => simp [sign, digit']
        | cons d' t => simp [sign, digit', decimals_true_iff]
      · simp [sign, digit']

theorem decimals_false_iff :
    decimals false t = true ↔ ∃ ds x, t = ds ++ x ∧ IsDigits ds ∧ (x = [] ∨ IsExp x) := by
  constructor
  · intro run
    induction t with
    | nil => exact ⟨[], [], rfl, isDigits_nil, .inl rfl⟩
    | cons c t ih =>
      by_cases digit : isDigit c = true
      · rw [decimals_cons, if_pos digit] at run
        obtain ⟨ds, x, rfl, digits, ends⟩ := ih run
        exact ⟨c :: ds, x, rfl, isDigits_cons.mpr ⟨digit, digits⟩, ends⟩
      · by_cases letter : isExponentChar c = true
        · exact ⟨[], c :: t, rfl, isDigits_nil, .inr ((decimals_exp_iff letter).mp run)⟩
        · simp [decimals_cons, digit, letter] at run
  · rintro ⟨ds, x, rfl, digits, ends⟩
    induction ds with
    | nil =>
      rcases ends with rfl | isExp
      · rfl
      · obtain ⟨e, t, rfl, letter⟩ := isExp_head isExp
        exact (decimals_exp_iff letter).mpr isExp
    | cons d ds ih =>
      obtain ⟨digit, digits⟩ := isDigits_cons.mp digits
      rw [List.cons_append, decimals_cons, if_pos digit]
      exact ih digits

/-- All but the last are digits. -/
theorem dropLast_all_iff :
    t.dropLast.all isDigit = true ↔ IsDigits t ∨ ∃ ds c, t = ds ++ [c] ∧ IsDigits ds ∧ isDigit c = false := by
  rcases List.eq_nil_or_concat t with rfl | ⟨ds, c, rfl⟩
  · exact ⟨fun _ => .inl isDigits_nil, fun _ => rfl⟩
  · rw [List.concat_eq_append, List.dropLast_concat, List.all_eq_true]
    constructor
    · intro digits
      by_cases digit : isDigit c = true
      · left
        intro x inside
        rcases List.mem_append.mp inside with before | last
        · exact digits x before
        · rw [List.mem_singleton.mp last]
          exact digit
      · exact .inr ⟨ds, c, rfl, digits, by simpa using digit⟩
    · rintro (digits | ⟨ds', c', same, digits, _⟩) x inside
      · exact digits x (List.mem_append_left _ inside)
      · have equal := (List.append_inj' same rfl).1
        exact digits x (equal ▸ inside)

theorem exponent_iff (letter : isExponentChar e = true) :
    exponent t = true ↔ IsExp (e :: t) ∨ ∃ x c, e :: t = x ++ [c] ∧ IsExp x ∧ isDigit c = false := by
  have split : exponent t = true ↔ (∃ d ds, t = d :: ds ∧ isDigit d = true ∧ ds.dropLast.all isDigit = true) ∨
      ∃ sign d ds, t = sign :: d :: ds ∧ isSign sign = true ∧ isDigit d = true ∧ ds.dropLast.all isDigit = true := by
    cases t with
    | nil => simp [exponent]
    | cons d t =>
      rw [exponent_cons]
      by_cases digit : isDigit d = true
      · have sign : isSign d = false := by
          by_contra yes
          rw [Bool.not_eq_false] at yes
          rw [not_digit_of_sign yes] at digit
          cases digit
        simp [digit, sign]
      · simp only [digit, Bool.false_eq_true, if_false]
        by_cases sign : isSign d = true
        · cases t with
          | nil => simp [sign, digit]
          | cons d' t => simp [sign, digit]
        · simp [sign, digit]
  rw [split, isExp_cons_iff letter]
  constructor
  · rintro (⟨d, ds, rfl, digit, digits⟩ | ⟨sign, d, ds, rfl, isSign', digit, digits⟩)
    · rcases dropLast_all_iff.mp digits with all | ⟨ds', c, rfl, all, other⟩
      · exact .inl (.inl ⟨d, ds, rfl, digit, all⟩)
      · refine .inr ⟨e :: d :: ds', c, rfl, ?_, other⟩
        exact (isExp_cons_iff letter).mpr (.inl ⟨d, ds', rfl, digit, all⟩)
    · rcases dropLast_all_iff.mp digits with all | ⟨ds', c, rfl, all, other⟩
      · exact .inl (.inr ⟨sign, d, ds, rfl, isSign', digit, all⟩)
      · refine .inr ⟨e :: sign :: d :: ds', c, rfl, ?_, other⟩
        exact (isExp_cons_iff letter).mpr (.inr ⟨sign, d, ds', rfl, isSign', digit, all⟩)
  · rintro ((⟨d, ds, rfl, digit, digits⟩ | ⟨sign, d, ds, rfl, isSign', digit, digits⟩) | ⟨x, c, same, isExp, other⟩)
    · exact .inl ⟨d, ds, rfl, digit, dropLast_all_iff.mpr (.inl digits)⟩
    · exact .inr ⟨sign, d, ds, rfl, isSign', digit, dropLast_all_iff.mpr (.inl digits)⟩
    · obtain ⟨e', t', rfl, letter'⟩ := isExp_head isExp
      rw [List.cons_append, List.cons.injEq] at same
      obtain ⟨rfl, rfl⟩ := same
      rcases (isExp_cons_iff letter').mp isExp with ⟨d, ds, rfl, digit, digits⟩ |
        ⟨sign, d, ds, rfl, isSign', digit, digits⟩
      · exact .inl ⟨d, ds ++ [c], rfl, digit, dropLast_all_iff.mpr (.inr ⟨ds, c, rfl, digits, other⟩)⟩
      · exact .inr ⟨sign, d, ds ++ [c], rfl, isSign', digit,
          dropLast_all_iff.mpr (.inr ⟨ds, c, rfl, digits, other⟩)⟩

theorem numberTail_iff :
    numberTail u = true ↔ (∃ frac exp, u = frac ++ exp ∧ (frac = [] ∨ IsFrac frac) ∧ (exp = [] ∨ IsExp exp)) ∨
      (∃ exp, u = 0x2E :: exp ∧ IsExp exp) ∨ ∃ exp c, u = exp ++ [c] ∧ IsExp exp ∧ isDigit c = false := by
  constructor
  · intro run
    cases u with
    | nil => exact .inl ⟨[], [], rfl, .inl rfl, .inl rfl⟩
    | cons c t =>
      rw [numberTail] at run
      by_cases point : c = 0x2E
      · subst point
        rw [if_pos rfl, Bool.and_eq_true] at run
        obtain ⟨ds, x, rfl, digits, ends⟩ := decimals_false_iff.mp run.2
        cases ds with
        | nil =>
          rcases ends with rfl | isExp
          · exact absurd run.1 (by decide)
          · exact .inr (.inl ⟨x, rfl, isExp⟩)
        | cons d ds =>
          obtain ⟨digit, digits⟩ := isDigits_cons.mp digits
          exact .inl ⟨0x2E :: d :: ds, x, rfl, .inr ⟨d, ds, rfl, digit, digits⟩, ends⟩
      · rw [if_neg point] at run
        by_cases letter : isExponentChar c = true
        · rw [if_pos letter] at run
          rcases (exponent_iff letter).mp run with isExp | ⟨x, c', same, isExp, other⟩
          · exact .inl ⟨[], c :: t, rfl, .inl rfl, .inr isExp⟩
          · exact .inr (.inr ⟨x, c', same, isExp, other⟩)
        · rw [if_neg letter] at run
          cases run
  · have expTail : ∀ {x : List Nat}, IsExp x → numberTail x = true := by
      intro x isExp
      obtain ⟨e, t, rfl, letter⟩ := isExp_head isExp
      have point : e ≠ 0x2E := by
        rintro rfl
        exact absurd letter (by decide)
      rw [numberTail, if_neg point, if_pos letter]
      exact (exponent_iff letter).mpr (.inl isExp)
    have pointTail : ∀ {t : List Nat}, t ≠ [] → decimals false t = true → numberTail (0x2E :: t) = true := by
      intro t nonempty run
      rw [numberTail, if_pos rfl, run]
      simp [nonempty]
    rintro (⟨frac, exp, rfl, rfl | ⟨d, ds, rfl, digit, digits⟩, ends⟩ | ⟨exp, rfl, isExp⟩ |
      ⟨exp, c, rfl, isExp, other⟩)
    · rcases ends with rfl | isExp
      · rfl
      · exact expTail isExp
    · refine pointTail (by simp) (decimals_false_iff.mpr ⟨d :: ds, exp, rfl, ?_, ends⟩)
      exact isDigits_cons.mpr ⟨digit, digits⟩
    · obtain ⟨e, t, rfl, letter⟩ := isExp_head isExp
      exact pointTail (by simp) (decimals_false_iff.mpr ⟨[], e :: t, rfl, isDigits_nil, .inr isExp⟩)
    · obtain ⟨e, t, rfl, letter⟩ := isExp_head isExp
      have point : e ≠ 0x2E := by
        rintro rfl
        exact absurd letter (by decide)
      rw [List.cons_append, numberTail, if_neg point, if_pos letter]
      exact (exponent_iff letter).mpr (.inr ⟨e :: t, c, rfl, isExp, other⟩)

theorem nonZeroTail_iff : nonZeroTail t = true ↔ ∃ ds u, t = ds ++ u ∧ IsDigits ds ∧ numberTail u = true := by
  constructor
  · intro run
    induction t with
    | nil => exact ⟨[], [], rfl, isDigits_nil, rfl⟩
    | cons c t ih =>
      rw [nonZeroTail] at run
      by_cases digit : isDigit c = true
      · rw [if_pos digit] at run
        obtain ⟨ds, u, rfl, digits, last⟩ := ih run
        exact ⟨c :: ds, u, rfl, isDigits_cons.mpr ⟨digit, digits⟩, last⟩
      · rw [if_neg digit] at run
        exact ⟨[], c :: t, rfl, isDigits_nil, run⟩
  · rintro ⟨ds, u, rfl, digits, last⟩
    induction ds with
    | nil =>
      cases u with
      | nil => rfl
      | cons c u =>
        have digit : ¬ isDigit c = true := by
          intro digit
          have point : c ≠ 0x2E := by
            rintro rfl
            exact absurd digit (by decide)
          have letter : ¬ isExponentChar c = true := by
            intro letter
            rw [not_digit_of_exponentChar letter] at digit
            cases digit
          rw [numberTail, if_neg point, if_neg letter] at last
          cases last
        rw [List.nil_append, nonZeroTail, if_neg digit]
        exact last
    | cons d ds ih =>
      obtain ⟨digit, digits⟩ := isDigits_cons.mp digits
      rw [List.cons_append, nonZeroTail, if_pos digit]
      exact ih digits

theorem unsignedNumber_iff :
    unsignedNumber s = true ↔ ∃ int u, s = int ++ u ∧ IsInt int ∧ numberTail u = true := by
  constructor
  · intro run
    cases s with
    | nil => cases run
    | cons d t =>
      rw [unsignedNumber] at run
      by_cases zero : d = 0x30
      · rw [if_pos zero] at run
        exact ⟨[d], t, rfl, .inl (by rw [zero]), run⟩
      · rw [if_neg zero] at run
        split at run
        case isTrue bounds =>
          obtain ⟨ds, u, rfl, digits, last⟩ := nonZeroTail_iff.mp run
          exact ⟨d :: ds, u, rfl, .inr ⟨d, ds, rfl, bounds.1, bounds.2, digits⟩, last⟩
        case isFalse => cases run
  · rintro ⟨int, u, rfl, rfl | ⟨d, ds, rfl, low, high, digits⟩, last⟩
    · exact last
    · rw [List.cons_append, unsignedNumber, if_neg (by omega), if_pos ⟨low, high⟩]
      exact nonZeroTail_iff.mpr ⟨ds, u, rfl, digits, last⟩

theorem codeNumber_iff :
    codeNumber s = true ↔
      ∃ minus int u, s = minus ++ int ++ u ∧ IsMinus minus ∧ IsInt int ∧ numberTail u = true := by
  constructor
  · intro run
    cases s with
    | nil => cases run
    | cons c t =>
      rw [codeNumber] at run
      by_cases sign : c = 0x2D
      · rw [if_pos sign] at run
        obtain ⟨int, u, rfl, isInt, last⟩ := unsignedNumber_iff.mp run
        exact ⟨[c], int, u, rfl, .inr (by rw [sign]), isInt, last⟩
      · rw [if_neg sign] at run
        obtain ⟨int, u, same, isInt, last⟩ := unsignedNumber_iff.mp run
        exact ⟨[], int, u, same, .inl rfl, isInt, last⟩
  · rintro ⟨minus, int, u, rfl, isMinus, isInt, last⟩
    have unsigned : unsignedNumber (int ++ u) = true := unsignedNumber_iff.mpr ⟨int, u, rfl, isInt, last⟩
    rcases isMinus with rfl | rfl
    · rw [List.nil_append]
      cases cases : int ++ u with
      | nil =>
        rw [cases] at unsigned
        cases unsigned
      | cons c t =>
        rw [cases] at unsigned
        have sign : c ≠ 0x2D := by
          rintro rfl
          exact absurd unsigned (by simp [unsignedNumber])
        rw [codeNumber, if_neg sign]
        exact unsigned
    · exact unsigned

/-- The tokens that pass the checks. -/
theorem codeNumber_of (number : IsNumber s ∨ OddNumber s) : codeNumber s = true := by
  rw [codeNumber_iff]
  rcases number with ⟨minus, int, frac, exp, rfl, isMinus, isInt, isFrac, isExp⟩ | odd
  · exact ⟨minus, int, frac ++ exp, by simp, isMinus, isInt, numberTail_iff.mpr (.inl ⟨frac, exp, rfl, isFrac, isExp⟩)⟩
  · cases odd with
    | @point minus int exp isMinus isInt isExp =>
      exact ⟨minus, int, 0x2E :: exp, rfl, isMinus, isInt, numberTail_iff.mpr (.inr (.inl ⟨exp, rfl, isExp⟩))⟩
    | @behind minus int exp c isMinus isInt isExp digit _ =>
      exact ⟨minus, int, exp ++ [c], by simp, isMinus, isInt,
        numberTail_iff.mpr (.inr (.inr ⟨exp, c, rfl, isExp, digit⟩))⟩

theorem of_codeNumber (run : codeNumber s = true) (last : ∀ t c, s = t ++ [c] → isSpace c = false) :
    IsNumber s ∨ OddNumber s := by
  obtain ⟨minus, int, u, rfl, isMinus, isInt, rest⟩ := codeNumber_iff.mp run
  rcases numberTail_iff.mp rest with ⟨frac, exp, rfl, isFrac, isExp⟩ | ⟨exp, rfl, isExp⟩ | ⟨exp, c, rfl, isExp, digit⟩
  · exact .inl ⟨minus, int, frac, exp, by simp, isMinus, isInt, isFrac, isExp⟩
  · exact .inr (.point isMinus isInt isExp)
  · rw [← List.append_assoc]
    exact .inr (.behind isMinus isInt isExp digit (last (minus ++ int ++ exp) c (by simp)))

/-! ## The last character, and numbers of the grammar -/

theorem digits_last (u : List Nat) {d : Nat} {ds : List Nat} (digit : isDigit d = true) (digits : IsDigits ds) :
    ∃ t c, u ++ d :: ds = t ++ [c] ∧ isDigit c = true := by
  induction ds using List.reverseRecOn with
  | nil => exact ⟨u, d, rfl, digit⟩
  | append_singleton ds c _ => exact ⟨u ++ d :: ds, c, by simp, digits c (by simp)⟩

theorem isInt_digits (isInt : IsInt s) : ∃ d ds, s = d :: ds ∧ isDigit d = true ∧ IsDigits ds := by
  rcases isInt with rfl | ⟨d, ds, rfl, low, high, digits⟩
  · exact ⟨0x30, [], rfl, by decide, isDigits_nil⟩
  · refine ⟨d, ds, rfl, ?_, digits⟩
    simp only [isDigit, Bool.and_eq_true, decide_eq_true_eq]
    omega

/-- A number of the grammar ends with a digit. -/
theorem isNumber_last (number : IsNumber s) : ∃ t c, s = t ++ [c] ∧ isDigit c = true := by
  obtain ⟨minus, int, frac, exp, rfl, _, isInt, isFrac, isExp⟩ := number
  rcases isExp with rfl | ⟨e, sign, d, ds, rfl, _, _, digit, digits⟩
  · rw [List.append_nil]
    rcases isFrac with rfl | ⟨d, ds, rfl, digit, digits⟩
    · rw [List.append_nil]
      obtain ⟨d, ds, rfl, digit, digits⟩ := isInt_digits isInt
      exact digits_last minus digit digits
    · have last := digits_last (minus ++ int ++ [0x2E]) digit digits
      rwa [List.append_assoc _ [0x2E], List.singleton_append] at last
  · have last := digits_last (minus ++ int ++ frac ++ e :: sign) digit digits
    rwa [List.append_assoc _ (e :: sign), List.cons_append] at last

/-- A token that passes the checks does not end with a space. -/
theorem oddNumber_last (odd : OddNumber s) : ∃ t c, s = t ++ [c] ∧ isSpace c = false := by
  cases odd with
  | @point minus int exp sign digits isExp =>
    obtain ⟨e, sign', d, ds, rfl, _, _, digit, digits'⟩ := isExp
    obtain ⟨t, c, same, last⟩ := digits_last (minus ++ int ++ 0x2E :: e :: sign') digit digits'
    rw [List.append_assoc _ (0x2E :: e :: sign'), List.cons_append, List.cons_append] at same
    refine ⟨t, c, same, ?_⟩
    simp only [isDigit, Bool.and_eq_true, decide_eq_true_eq] at last
    simp only [isSpace, Bool.or_eq_false_iff, decide_eq_false_iff_not]
    omega
  | behind sign digits isExp digit space => exact ⟨_, _, rfl, space⟩

/-- What is behind the integer part. -/
def behindInt (s : List Nat) : List Nat :=
  (match s with
  | 0x2D :: t => t
  | t => t).dropWhile isDigit

theorem dropWhile_digits {int : List Nat} (digits : IsDigits int)
    (stops : ∀ c t, u = c :: t → isDigit c = false) : (int ++ u).dropWhile isDigit = u := by
  induction int with
  | nil =>
    cases u with
    | nil => rfl
    | cons c t => rw [List.nil_append, List.dropWhile_cons, stops c t rfl, if_neg (by decide)]
  | cons d ds ih =>
    obtain ⟨digit, digits⟩ := isDigits_cons.mp digits
    rw [List.cons_append, List.dropWhile_cons, digit, if_pos rfl, ih digits]

theorem behindInt_eq {minus int : List Nat} (isMinus : IsMinus minus) (isInt : IsInt int)
    (stops : ∀ c t, u = c :: t → isDigit c = false) : behindInt (minus ++ int ++ u) = u := by
  obtain ⟨d, ds, rfl, digit, digits⟩ := isInt_digits isInt
  have whole : IsDigits (d :: ds) := isDigits_cons.mpr ⟨digit, digits⟩
  rcases isMinus with rfl | rfl
  · have other : d ≠ 0x2D := by
      rintro rfl
      cases digit
    have same : behindInt (d :: (ds ++ u)) = (d :: (ds ++ u)).dropWhile isDigit := by
      simp [behindInt, other]
    rw [List.nil_append, List.cons_append, same]
    exact dropWhile_digits whole stops
  · exact dropWhile_digits whole stops

/-- The odd tokens are no numbers. -/
theorem OddNumber.not_isNumber (odd : OddNumber s) : ¬ IsNumber s := by
  intro number
  cases odd with
  | @behind minus int exp c sign digits isExp digit space =>
    obtain ⟨t, c', same, last⟩ := isNumber_last number
    obtain ⟨_, equal⟩ := List.append_inj' same rfl
    rw [List.singleton_inj] at equal
    rw [equal, last] at digit
    cases digit
  | @point minus int exp sign digits isExp =>
    obtain ⟨e, x, rfl, letter⟩ := isExp_head isExp
    obtain ⟨minus', int', frac, exp', same, isMinus', isInt', isFrac, isExp'⟩ := number
    have first : behindInt (minus ++ int ++ 0x2E :: e :: x) = 0x2E :: e :: x := by
      refine behindInt_eq sign digits fun c t equal => ?_
      rw [List.cons.injEq] at equal
      rw [← equal.1]
      decide
    have second : behindInt (minus' ++ int' ++ (frac ++ exp')) = frac ++ exp' := by
      refine behindInt_eq isMinus' isInt' fun c t equal => ?_
      rcases isFrac with rfl | ⟨d, ds, rfl, _⟩
      · rcases isExp' with rfl | isExp'
        · cases equal
        · obtain ⟨e', y, rfl, letter'⟩ := isExp_head isExp'
          rw [List.nil_append, List.cons.injEq] at equal
          rw [← equal.1]
          exact not_digit_of_exponentChar letter'
      · rw [List.cons_append, List.cons.injEq] at equal
        rw [← equal.1]
        decide
    rw [same, List.append_assoc _ frac, second] at first
    rcases isFrac with rfl | ⟨d, ds, rfl, digit, _⟩
    · rcases isExp' with rfl | isExp'
      · cases first
      · obtain ⟨e', y, rfl, letter'⟩ := isExp_head isExp'
        rw [List.nil_append, List.cons.injEq] at first
        rw [first.1] at letter'
        cases letter'
    · rw [List.cons_append, List.cons_append, List.cons.injEq, List.cons.injEq] at first
      have no := not_digit_of_exponentChar letter
      rw [← first.2.1, digit] at no
      cases no

end Json

end ArkRuntime
