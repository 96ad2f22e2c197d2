import ArkRuntime.Json.Numbers

/-!
# Number tokens of the JSON parser

Inside of an array or object `ReadNumberRange` finds the end of a number: the first character that is not a part
of one, followed by a comma or a closing bracket. A short integer right before one of these is read at once. At
the top level the number goes up to the end of the text.
-/

namespace ArkRuntime

namespace Json

variable {mem : List Nat}

def isNumberPart (c : Nat) : Bool := isDigit c || isNumberSignalCharacter c

/-- The numbers that are read inside of an array or object. -/
def NestedNumber (s : List Nat) : Prop := (IsNumber s ∨ OddNumber s) ∧ ∀ c ∈ s, isNumberPart c = true

variable {c range q p : Nat} {rest s w ds minus : List Nat} {parser : Parser}

theorem isDigit_bounds : isDigit c = true ↔ 0x30 ≤ c ∧ c ≤ 0x39 := by
  simp [isDigit]

theorem isNumberPart_iff :
    isNumberPart c = true ↔ (0x30 ≤ c ∧ c ≤ 0x39) ∨ c = 0x2E ∨ c = 0x65 ∨ c = 0x45 ∨ c = 0x2B ∨ c = 0x2D := by
  simp [isNumberPart, isNumberSignalCharacter, isDigit, or_assoc]

theorem isNumberEnd_iff : isNumberEnd c = true ↔ c = 0x2C ∨ c = 0x5D ∨ c = 0x7D := by
  simp [isNumberEnd, or_assoc]

theorem isSpace_iff : isSpace c = true ↔ c = 0x20 ∨ c = 0x0D ∨ c = 0x0A ∨ c = 0x09 := by
  simp [isSpace, or_assoc]

theorem not_part_of_space (space : isSpace c = true) : isNumberPart c = false := by
  rw [← Bool.not_eq_true, isNumberPart_iff]
  rw [isSpace_iff] at space
  omega

theorem not_part_of_end (ends : isNumberEnd c = true) : isNumberPart c = false := by
  rw [← Bool.not_eq_true, isNumberPart_iff]
  rw [isNumberEnd_iff] at ends
  omega

theorem not_space_of_end (ends : isNumberEnd c = true) : isSpace c = false := by
  rw [← Bool.not_eq_true, isSpace_iff]
  rw [isNumberEnd_iff] at ends
  omega

theorem not_space_of_part (part : isNumberPart c = true) : isSpace c = false := by
  by_contra space
  rw [Bool.not_eq_false] at space
  rw [not_part_of_space space] at part
  cases part

theorem part_of_digit (digit : isDigit c = true) : isNumberPart c = true := by
  rw [isNumberPart, digit, Bool.true_or]

/-- The integer part of a token. -/
theorem nestedNumber_int (number : IsNumber s ∨ OddNumber s) :
    ∃ minus int u, s = minus ++ int ++ u ∧ IsMinus minus ∧ IsInt int := by
  obtain ⟨minus, int, u, same, isMinus, isInt, _⟩ := codeNumber_iff.mp (codeNumber_of number)
  exact ⟨minus, int, u, same, isMinus, isInt⟩

/-! ## The end of a token -/

/-- The rest of a token with what may be behind it. -/
theorem readNumberEnd_eq {u : List Nat} (left : mem.drop q = u ++ (w ++ c :: rest))
    (parts : ∀ x ∈ u, isNumberPart x = true) (spaces : IsSpaces w) (ends : isNumberEnd c = true)
    (inside : q + u.length + w.length ≤ range ∨ range < q)
    (comma : c = 0x2C → q + u.length + w.length ≠ range ∨ w = []) :
    readNumberEnd mem range q = some (.slow (q + u.length - 1)) := by
  have behind := drop_append left
  have close := drop_append behind
  have stop : scan mem isNumberPart range q = q + u.length := by
    refine scan_append (by decide) left parts (fun i low high => by omega) (.inr ?_)
    intro x r same
    cases w with
    | nil =>
      rw [List.nil_append, List.cons.injEq] at same
      rw [← same.1]
      exact not_part_of_end ends
    | cons y w =>
      rw [List.cons_append, List.cons.injEq] at same
      rw [← same.1]
      exact not_part_of_space (spaces y List.mem_cons_self)
  have skip : scan mem isSpace range (q + u.length) = q + u.length + w.length := by
    refine scan_append (by decide) behind spaces (fun i low high => by omega) (.inr ?_)
    intro x r same
    rw [List.cons.injEq] at same
    rw [← same.1]
    exact not_space_of_end ends
  have stop' : scan mem (fun c => isDigit c || isNumberSignalCharacter c) range q = q + u.length := stop
  rw [readNumberEnd]
  simp only [stop', skip]
  by_cases full : q + u.length = range
  · rw [if_pos full, full]
  · rw [if_neg full, unit_eq close, ends]
    by_cases last : q + u.length + w.length = range
    · rw [if_neg (by simpa using last), if_pos]
      rcases isNumberEnd_iff.mp ends with rfl | rfl | rfl
      · rcases comma rfl with other | rfl
        · exact absurd last other
        · exact absurd last full
      · exact .inl rfl
      · exact .inr rfl
    · rw [if_pos last, if_pos rfl]

/-- Spaces up to a comma that is the last character of the text. -/
structure CommaAhead (mem : List Nat) (e range : Nat) : Prop where
  before : e < range
  spaces : ∀ i, e ≤ i → i < range → isSpace (unit mem i) = true
  comma : unit mem range = 0x2C

/-- The spaces before the comma are skipped. -/
theorem CommaAhead.scan_eq {e : Nat} (ahead : CommaAhead mem e range) : scan mem isSpace range e = range := by
  obtain ⟨le, _, stops⟩ := scan_spec mem (p := isSpace) (by decide) range e
  rcases stops with limit | other
  · exact limit
  · by_contra away
    have bound : scan mem isSpace range e < range := by
      by_contra beyond
      obtain ⟨_, passed, _⟩ := scan_spec mem (p := isSpace) (by decide) range e
      have before := ahead.before
      exact (passed range (by omega) (by omega)).1 rfl
    rw [ahead.spaces _ le bound] at other
    cases other

/-- Where the end of a token is found, the token has the characters of numbers. -/
theorem of_readNumberEnd {x : NumberRange} (run : readNumberEnd mem range q = some x) (before : q ≤ range) :
    ∃ e, x = .slow (e - 1) ∧ q ≤ e ∧ e ≤ range ∧ (∀ c ∈ slice mem q e, isNumberPart c = true) ∧
      (e = range ∨ isNumberPart (unit mem e) = false) ∧ ¬ CommaAhead mem e range := by
  obtain ⟨le, parts, stops⟩ := scan_spec mem (p := isNumberPart) (by decide) range q
  have bound : scan mem isNumberPart range q ≤ range := by
    by_contra beyond
    exact (parts range before (by omega)).1 rfl
  have same : scan mem (fun c => isDigit c || isNumberSignalCharacter c) range q = scan mem isNumberPart range q := rfl
  simp only [readNumberEnd, same] at run
  refine ⟨scan mem isNumberPart range q, ?_, le, bound, ?_, stops, fun ahead => ?_⟩
  · split at run
    case isTrue full => rw [full]; exact (Option.some.inj run).symm
    case isFalse =>
      split at run
      · split at run
        · exact (Option.some.inj run).symm
        · cases run
      · split at run
        · exact (Option.some.inj run).symm
        · cases run
  · intro c inside
    obtain ⟨k, low, high, rfl⟩ := mem_slice.mp inside
    exact (parts k low high).2
  · rw [if_neg (Nat.ne_of_lt ahead.before), ahead.scan_eq, if_neg (by simp), ahead.comma, if_neg (by decide)] at run
    cases run

/-! ## Whole tokens -/

theorem isShortInteger_iff :
    isShortInteger ds = true ↔ ∃ d t, ds = d :: t ∧ 0x31 ≤ d ∧ d ≤ 0x39 ∧ IsDigits t ∧ ds.length ≤ 9 := by
  cases ds with
  | nil => simp [isShortInteger]
  | cons d t => simp [isShortInteger, IsDigits, and_assoc]

theorem numberOf_short (isMinus : IsMinus minus) (short : isShortInteger ds = true) :
    numberOf (minus ++ ds) = .int ((digitsValue ds : Int) * if minus = [] then 1 else -1) := by
  rcases isMinus with rfl | rfl
  · obtain ⟨d, t, rfl, low, high, _⟩ := isShortInteger_iff.mp short
    rw [List.nil_append, if_pos rfl, Int.mul_one, numberOf, if_pos short]
    intro t' same
    rw [List.cons.injEq] at same
    omega
  · rw [if_neg (by simp)]
    change numberOf (0x2D :: ds) = _
    rw [numberOf, if_pos short, Int.mul_neg_one]

theorem map_mod_eq (ascii : ∀ c ∈ s, c < 256) : s.map (· % 256) = s := by
  refine (List.map_congr_left fun c inside => ?_).trans (List.map_id s)
  exact Nat.mod_eq_of_lt (ascii c inside)

theorem part_lt (part : isNumberPart c = true) : c < 256 := by
  rw [isNumberPart_iff] at part
  omega

theorem slice_append (mem : List Nat) {i j k : Nat} (first : i ≤ j) (second : j ≤ k) :
    slice mem i k = slice mem i j ++ slice mem j k := by
  induction h : j - i generalizing i with
  | zero =>
    obtain rfl : i = j := by omega
    rw [slice_self]
    rfl
  | succ n ih =>
    rw [slice_cons (show i < k by omega), slice_cons (show i < j by omega), ih (by omega) (by omega)]
    rfl

/-- The position of the first digit. -/
def firstDigit (mem : List Nat) (p : Nat) : Nat := if unit mem p = 0x2D then p + 1 else p

theorem readNumberRange_eq (range p : Nat) :
    readNumberRange mem range p =
      if unit mem (firstDigit mem p) = 0x30 then readNumberEnd mem range (firstDigit mem p + 1)
      else if firstDigit mem p = scan mem isDigit range (firstDigit mem p) then none
      else if scan mem isDigit range (firstDigit mem p) - firstDigit mem p ≤ 9 ∧
          isNumberEnd (unit mem (scan mem isDigit range (firstDigit mem p))) = true then
        some (.fast ((digitsValue (slice mem (firstDigit mem p) (scan mem isDigit range (firstDigit mem p))) : Int) *
          if unit mem p = 0x2D then -1 else 1) (scan mem isDigit range (firstDigit mem p)))
      else readNumberEnd mem range (firstDigit mem p) := rfl

theorem token_last (token : IsNumber s ∨ OddNumber s) : ∃ t c, s = t ++ [c] ∧ isSpace c = false := by
  rcases token with number | odd
  · obtain ⟨t, c, same, digit⟩ := isNumber_last number
    exact ⟨t, c, same, not_space_of_part (part_of_digit digit)⟩
  · exact oddNumber_last odd

/-- A token of which the end has been found is checked. -/
theorem parseNumber_slow (left : mem.drop parser.current = s ++ rest) (number : NestedNumber s)
    (found : readNumberRange mem parser.range parser.current = some (.slow (parser.current + s.length - 1))) :
    ∃ parser', parseNumber mem true parser = .ok (numberOf s, parser') ∧
      Behind parser parser' (parser.current + s.length) := by
  obtain ⟨code, parts⟩ := number
  obtain ⟨t, c, same, _⟩ := token_last code
  have length : 0 < s.length := by
    rw [same, List.length_append, List.length_singleton]
    omega
  have room : parser.current + s.length ≤ mem.length := by
    have total := congrArg List.length left
    rw [List.length_drop, List.length_append] at total
    omega
  have token := slice_eq left
  have last : parser.current + s.length - 1 + 1 = parser.current + s.length := by omega
  have check : checkNumber mem (parser.current + s.length - 1) parser.current = true := by
    rw [checkNumber_eq (by omega) (by omega), last, token]
    exact codeNumber_of code
  rw [parseNumber]
  simp only [if_true, found, check]
  rw [last, token, map_mod_eq fun c inside => part_lt (parts c inside)]
  exact ⟨_, rfl, rfl, rfl, .inl (by simp only; omega)⟩

/-- Where the integer part of a number starts. -/
theorem firstDigit_eq {int : List Nat} (left : mem.drop p = minus ++ (int ++ rest)) (isMinus : IsMinus minus)
    (isInt : IsInt int) :
    firstDigit mem p = p + minus.length ∧ mem.drop (p + minus.length) = int ++ rest := by
  have behind := drop_append left
  obtain ⟨d, ds, rfl, digit, _⟩ := isInt_digits isInt
  rcases isMinus with rfl | rfl
  · have head : unit mem p ≠ 0x2D := by
      have bounds := isDigit_bounds.mp digit
      rw [unit_eq left]
      omega
    exact ⟨if_neg head, behind⟩
  · exact ⟨if_pos (unit_eq left), behind⟩

/-- `0` or `-0` of which the last character is the last one of the text or behind it. -/
theorem parseNumber_zero (left : mem.drop parser.current = minus ++ [0x30] ++ (w ++ c :: rest))
    (isMinus : IsMinus minus) (spaces : IsSpaces w) (ends : isNumberEnd c = true)
    (behind : parser.range ≤ parser.current + minus.length) :
    ∃ parser', parseNumber mem true parser = .ok (numberOf (minus ++ [0x30]), parser') ∧
      Behind parser parser' (parser.current + (minus ++ [0x30]).length) := by
  have isInt : IsInt [0x30] := .inl rfl
  have number : NestedNumber (minus ++ [0x30]) := by
    refine ⟨.inl ⟨minus, [0x30], [], [], by simp, isMinus, isInt, .inl rfl, .inl rfl⟩, ?_⟩
    rcases isMinus with rfl | rfl <;> decide
  refine parseNumber_slow left number ?_
  rw [List.append_assoc] at left
  obtain ⟨first, digits⟩ := firstDigit_eq left isMinus isInt
  have rest' : mem.drop (parser.current + minus.length + 1) = [] ++ (w ++ c :: rest) := drop_cons digits
  rw [readNumberRange_eq, first, unit_eq digits, if_pos rfl,
    readNumberEnd_eq rest' (fun x no => absurd no List.not_mem_nil) spaces ends (.inr (by omega))
      (fun _ => .inl (by simp only [List.length_nil]; omega))]
  simp only [List.length_append, List.length_singleton, List.length_nil, Nat.add_zero, Nat.add_assoc]

theorem readNumberEnd_ne_fast {i : Int} : readNumberEnd mem range q ≠ some (.fast i c) := by
  intro run
  simp only [readNumberEnd] at run
  split at run
  · cases run
  · split at run
    · split at run <;> cases run
    · split at run <;> cases run

/-- The fast path accepts a short integer. -/
theorem readNumberRange_fast {i : Int} (found : readNumberRange mem range p = some (.fast i c)) :
    p < c ∧ NestedNumber (slice mem p c) ∧ numberOf (slice mem p c) = .int i := by
  have start : p ≤ firstDigit mem p := by
    rw [firstDigit]
    split <;> omega
  rw [readNumberRange_eq] at found
  split at found
  case isTrue => exact absurd found readNumberEnd_ne_fast
  split at found
  case isTrue => cases found
  case isFalse empty =>
    obtain ⟨le, passed, _⟩ := scan_spec mem (show isDigit 0 = false by decide) range (firstDigit mem p)
    split at found
    case isFalse => exact absurd found readNumberEnd_ne_fast
    case isTrue fast =>
      simp only [Option.some.injEq, NumberRange.fast.injEq] at found
      obtain ⟨rfl, rfl⟩ := found
      have token := slice_append mem start le
      have digit := (passed _ (Nat.le_refl _) (by omega)).2
      have short : isShortInteger (slice mem (firstDigit mem p) (scan mem isDigit range (firstDigit mem p))) = true := by
        have bounds := isDigit_bounds.mp digit
        rw [slice_cons (by omega)]
        refine isShortInteger_iff.mpr ⟨_, _, rfl, by omega, by omega, fun x member => ?_, ?_⟩
        · obtain ⟨k, low, high, rfl⟩ := mem_slice.mp member
          exact (passed k (by omega) high).2
        · rw [List.length_cons, length_slice]
          omega
      have minus : (unit mem p = 0x2D ∧ slice mem p (firstDigit mem p) = [0x2D]) ∨
          (unit mem p ≠ 0x2D ∧ slice mem p (firstDigit mem p) = []) := by
        by_cases sign : unit mem p = 0x2D
        · left
          rw [firstDigit, if_pos sign, slice_cons (by omega), slice_self, sign]
          exact ⟨rfl, rfl⟩
        · right
          rw [firstDigit, if_neg sign, slice_self]
          exact ⟨sign, rfl⟩
      have isMinus : IsMinus (slice mem p (firstDigit mem p)) := by
        rcases minus with ⟨_, same⟩ | ⟨_, same⟩
        · exact .inr same
        · exact .inl same
      refine ⟨by omega, ⟨.inl ?_, fun c member => ?_⟩, ?_⟩
      · rw [token]
        obtain ⟨d, t, same, low, high, digits, _⟩ := isShortInteger_iff.mp short
        refine ⟨_, d :: t, [], [], by rw [same]; simp, isMinus, ?_, .inl rfl, .inl rfl⟩
        exact .inr ⟨d, t, rfl, low, high, digits⟩
      · rw [token] at member
        rcases List.mem_append.mp member with before | behind
        · rcases minus with ⟨_, same⟩ | ⟨_, same⟩
          · rw [same, List.mem_singleton] at before
            rw [before]
            decide
          · rw [same] at before
            cases before
        · obtain ⟨k, low, high, rfl⟩ := mem_slice.mp behind
          exact part_of_digit (passed k low high).2
      · rw [token, numberOf_short isMinus short]
        rcases minus with ⟨sign, same⟩ | ⟨sign, same⟩
        · rw [same, if_pos sign, if_neg (by simp)]
        · rw [same, if_neg sign, if_pos rfl]

/-- The digits end at the latest with the number, and there is one. -/
theorem scan_digits {d : Nat} {u : List Nat} (left : mem.drop p = d :: ds ++ u ++ (w ++ c :: rest))
    (digit : isDigit d = true) (spaces : IsSpaces w) (ends : isNumberEnd c = true) (inside : p < range) :
    p ≠ scan mem isDigit range p ∧ scan mem isDigit range p ≤ p + (d :: ds ++ u).length := by
  obtain ⟨_, passed, stops⟩ := scan_spec mem (p := isDigit) (by decide) range p
  have behind := drop_append left
  have close : isNumberPart (unit mem (p + (d :: ds ++ u).length)) = false := by
    cases w with
    | nil =>
      rw [unit_eq behind]
      exact not_part_of_end ends
    | cons y w =>
      rw [unit_eq behind]
      exact not_part_of_space (spaces y List.mem_cons_self)
  constructor
  · intro same
    rw [← same] at stops
    rcases stops with limit | other
    · omega
    · rw [unit_eq left, digit] at other
      cases other
  · by_contra beyond
    have digit' := (passed (p + (d :: ds ++ u).length) (by omega) (by omega)).2
    rw [part_of_digit digit'] at close
    cases close

/-- A number with a comma or a closing bracket behind it. -/
theorem parseNumber_of_nested (left : mem.drop parser.current = s ++ (w ++ c :: rest))
    (number : NestedNumber s) (spaces : IsSpaces w) (ends : isNumberEnd c = true)
    (inside : parser.current + s.length + w.length ≤ parser.range)
    (comma : c = 0x2C → parser.current + s.length + w.length < parser.range ∨ w = []) :
    ∃ parser', parseNumber mem true parser = .ok (numberOf s, parser') ∧
      Behind parser parser' (parser.current + s.length) := by
  obtain ⟨code, parts⟩ := number
  obtain ⟨minus, int, u, rfl, isMinus, isInt⟩ := nestedNumber_int code
  have slow := parseNumber_slow left ⟨code, parts⟩
  have token := slice_eq left
  rw [List.append_assoc, List.append_assoc] at left
  obtain ⟨first, behind⟩ := firstDigit_eq left isMinus isInt
  rw [List.length_append, List.length_append] at inside comma
  have parts' : ∀ x ∈ u, isNumberPart x = true := fun x mem => parts x (List.mem_append_right _ mem)
  rcases isInt with rfl | ⟨d, ds, rfl, low, high, _⟩
  · apply slow
    have rest' := drop_cons behind
    rw [readNumberRange_eq, first, unit_eq behind, if_pos rfl,
      readNumberEnd_eq rest' parts' spaces ends (.inl (by simp only [List.length_singleton] at inside; omega))
        (fun same => (comma same).imp_left fun less => by simp only [List.length_singleton] at less; omega)]
    simp only [List.length_append, List.length_singleton, Nat.add_assoc]
  · have parts'' : ∀ x ∈ d :: ds ++ u, isNumberPart x = true := by
      intro x inside
      exact parts x (by simp only [List.append_assoc]; exact List.mem_append_right _ inside)
    have head := unit_eq behind
    rw [← List.append_assoc] at behind
    have length : parser.current + minus.length + (d :: ds ++ u).length =
        parser.current + (minus ++ (d :: ds) ++ u).length := by
      simp only [List.length_append]
      omega
    have full : readNumberEnd mem parser.range (parser.current + minus.length) =
        some (.slow (parser.current + (minus ++ (d :: ds) ++ u).length - 1)) := by
      rw [readNumberEnd_eq behind parts'' spaces ends (.inl (by rw [List.length_append]; omega))
        (fun same => (comma same).imp_left fun less => by rw [List.length_append]; omega), length]
    obtain ⟨le, _, _⟩ := scan_spec mem (p := isDigit) (by decide) parser.range (parser.current + minus.length)
    obtain ⟨moved, bound⟩ := scan_digits behind (isDigit_bounds.mpr ⟨by omega, high⟩) spaces ends
      (show _ < parser.range by rw [List.length_cons] at inside; omega)
    have range : readNumberRange mem parser.range parser.current = _ := readNumberRange_eq ..
    rw [first, head, if_neg (by omega), if_neg moved] at range
    by_cases fast : scan mem isDigit parser.range (parser.current + minus.length) - (parser.current + minus.length) ≤ 9 ∧
        isNumberEnd (unit mem (scan mem isDigit parser.range (parser.current + minus.length))) = true
    · -- a character that ends a number is not one of its parts
      have same : scan mem isDigit parser.range (parser.current + minus.length) =
          parser.current + (minus ++ (d :: ds) ++ u).length := by
        rw [← length]
        by_contra other
        have part : isNumberPart (unit mem (scan mem isDigit parser.range (parser.current + minus.length))) = true := by
          apply parts''
          rw [← slice_eq behind]
          exact mem_slice.mpr ⟨_, le, by omega, rfl⟩
        rw [not_part_of_end fast.2] at part
        cases part
      rw [if_pos fast, same] at range
      obtain ⟨_, _, value⟩ := readNumberRange_fast range
      rw [token] at value
      rw [parseNumber, value]
      simp only [if_true, range]
      exact ⟨_, rfl, rfl, rfl, .inr rfl⟩
    · rw [if_neg fast] at range
      exact slow (range.trans full)

/-- A number whose end is found before the end of the text. -/
theorem nested_of_parseNumber {parser' : Parser} {n : JSNumber} (inside : parser.range < mem.length)
    (first : firstDigit mem parser.current ≤ parser.range)
    (zero : unit mem (firstDigit mem parser.current) = 0x30 → firstDigit mem parser.current < parser.range)
    (parsed : parseNumber mem true parser = .ok (n, parser')) :
    ∃ e, parser.current < e ∧ e ≤ parser.range ∧ NestedNumber (slice mem parser.current e) ∧
      n = numberOf (slice mem parser.current e) ∧ Behind parser parser' e ∧ ¬ CommaAhead mem e parser.range := by
  have start : parser.current ≤ firstDigit mem parser.current ∧ firstDigit mem parser.current ≤ parser.current + 1 := by
    rw [firstDigit]
    split <;> omega
  -- a minus is a part of a number
  have signed : ∀ e, firstDigit mem parser.current ≤ e → (∀ c ∈ slice mem (firstDigit mem parser.current) e,
      isNumberPart c = true) → ∀ c ∈ slice mem parser.current e, isNumberPart c = true := by
    intro e le parts c member
    rw [slice_append mem start.1 le] at member
    rcases List.mem_append.mp member with before | behind
    · obtain ⟨k, low, high, rfl⟩ := mem_slice.mp before
      rw [firstDigit] at high
      split at high
      case isTrue minus =>
        obtain rfl : k = parser.current := by omega
        rw [minus]
        decide
      case isFalse => omega
    · exact parts c behind
  have slow : ∀ e, readNumberRange mem parser.range parser.current = some (.slow (e - 1)) → parser.current < e →
      e ≤ parser.range → (∀ c ∈ slice mem parser.current e, isNumberPart c = true) → ¬ CommaAhead mem e parser.range →
      ∃ e, parser.current < e ∧ e ≤ parser.range ∧ NestedNumber (slice mem parser.current e) ∧
        n = numberOf (slice mem parser.current e) ∧ Behind parser parser' e ∧ ¬ CommaAhead mem e parser.range := by
    intro e found less le parts away
    rw [parseNumber] at parsed
    simp only [if_true, found] at parsed
    rw [show e - 1 + 1 = e by omega, map_mod_eq fun c member => part_lt (parts c member)] at parsed
    split at parsed
    case isTrue check =>
      rw [checkNumber_eq (by omega) (by omega), show e - 1 + 1 = e by omega] at check
      simp only [Except.ok.injEq, Prod.mk.injEq] at parsed
      obtain ⟨rfl, rfl⟩ := parsed
      refine ⟨e, less, le, ⟨of_codeNumber check fun t c same => ?_, parts⟩, rfl, ⟨rfl, rfl, .inl (by simp only; omega)⟩,
        away⟩
      exact not_space_of_part (parts c (by rw [same]; simp))
    case isFalse => cases parsed
  rw [readNumberRange_eq] at slow
  by_cases isZero : unit mem (firstDigit mem parser.current) = 0x30
  · rw [if_pos isZero] at slow
    cases found : readNumberEnd mem parser.range (firstDigit mem parser.current + 1) with
    | none =>
      rw [parseNumber, readNumberRange_eq, if_pos isZero] at parsed
      simp only [if_true, found] at parsed
      cases parsed
    | some x =>
      have before := zero isZero
      obtain ⟨e, rfl, le, bound, parts, _, away⟩ := of_readNumberEnd found before
      refine slow e found (by omega) bound (signed e (by omega) fun c member => ?_) away
      rw [slice_cons (by omega)] at member
      rcases List.mem_cons.mp member with rfl | behind
      · rw [isZero]
        decide
      · exact parts c behind
  · rw [if_neg isZero] at slow
    obtain ⟨le, passed, stops⟩ := scan_spec mem (p := isDigit) (by decide) parser.range (firstDigit mem parser.current)
    have bound : scan mem isDigit parser.range (firstDigit mem parser.current) ≤ parser.range := by
      by_contra beyond
      exact (passed parser.range first (by omega)).1 rfl
    by_cases empty : firstDigit mem parser.current = scan mem isDigit parser.range (firstDigit mem parser.current)
    · rw [parseNumber, readNumberRange_eq, if_neg isZero, if_pos empty] at parsed
      cases parsed
    · rw [if_neg empty] at slow
      have digit := (passed _ (Nat.le_refl _) (by omega)).2
      by_cases fast : scan mem isDigit parser.range (firstDigit mem parser.current) - firstDigit mem parser.current ≤ 9 ∧
          isNumberEnd (unit mem (scan mem isDigit parser.range (firstDigit mem parser.current))) = true
      · rw [parseNumber, readNumberRange_eq, if_neg isZero, if_neg empty, if_pos fast] at parsed
        simp only [if_true, Except.ok.injEq, Prod.mk.injEq] at parsed
        obtain ⟨rfl, rfl⟩ := parsed
        obtain ⟨less, number, is⟩ := readNumberRange_fast
          ((readNumberRange_eq _ _).trans ((if_neg isZero).trans ((if_neg empty).trans (if_pos fast))))
        refine ⟨_, less, bound, number, is.symm, ⟨rfl, rfl, .inr rfl⟩, fun ahead => ?_⟩
        have space := ahead.spaces _ (Nat.le_refl _) ahead.before
        rw [not_space_of_end fast.2] at space
        cases space
      · rw [if_neg fast] at slow
        cases found : readNumberEnd mem parser.range (firstDigit mem parser.current) with
        | none =>
          rw [parseNumber, readNumberRange_eq, if_neg isZero, if_neg empty, if_neg fast] at parsed
          simp only [if_true, found] at parsed
          cases parsed
        | some x =>
          obtain ⟨e, rfl, le', bound', parts, stops', away⟩ := of_readNumberEnd found first
          refine slow e found ?_ bound' (signed e le' parts) away
          rcases Nat.eq_or_lt_of_le le' with same | less
          · rw [← same] at stops'
            rcases stops' with limit | other
            · omega
            · rw [part_of_digit digit] at other
              cases other
          · omega

/-- A number at the top level goes up to the end of the text. -/
theorem parseNumber_top_iff {parser' : Parser} {n : JSNumber} (le : parser.current ≤ parser.end_)
    (inside : parser.end_ < mem.length) :
    parseNumber mem false parser = .ok (n, parser') ↔
      codeNumber (slice mem parser.current (parser.end_ + 1)) = true ∧
        n = numberOf ((slice mem parser.current (parser.end_ + 1)).map (· % 256)) ∧
        parser' = { parser with current := parser.end_ + 1 } := by
  rw [parseNumber]
  simp only [Bool.false_eq_true, if_false, checkNumber_eq le inside]
  split
  case isTrue check =>
    simp only [Except.ok.injEq, Prod.mk.injEq, check, true_and]
    exact ⟨fun ⟨first, second⟩ => ⟨first.symm, second.symm⟩, fun ⟨first, second⟩ => ⟨first.symm, second.symm⟩⟩
  case isFalse check =>
    simp [check]

end Json

end ArkRuntime
