import ArkRuntime.Json.Cut

/-!
# What the JSON parser accepts

Every step of the machine that stays in the text goes on with a start of it. The first one that does not shows that
the text breaks off. So a text that is accepted is a text of the code or one that breaks off.
-/

namespace ArkRuntime

namespace Json

theorem slice_one (mem : List Nat) (q : Nat) : slice mem q (q + 1) = [unit mem q] := by
  rw [slice_cons (Nat.lt_succ_self q), slice_self]

variable {p q : Nat} {parser : Parser} {fs : List Frame} {v : Value} {c : Config} {t w s : List Nat} {f : Frame}

theorem slice_snoc (mem : List Nat) (le : p ≤ q) : slice mem p (q + 1) = slice mem p q ++ [unit mem q] := by
  rw [slice_append mem le (Nat.le_succ q), slice_one]

/-- The character that a token starts with. -/
def Tokens.StartsWith (c : Nat) : Tokens → Prop
  | .object => c = 0x7B
  | .array => c = 0x5B
  | .number => isDigit c = true ∨ c = 0x2D
  | .string => c = 0x22
  | .literalTrue => c = 0x74
  | .literalFalse => c = 0x66
  | .literalNull => c = 0x6E
  | .tokenIllegal => True

theorem parseToken_starts (c : Nat) : (parseToken c).StartsWith c := by
  unfold parseToken
  split
  all_goals try rfl
  · exact .inr rfl
  · split
    case isTrue digit => exact .inl digit
    case isFalse => trivial

/-- A text in memory: where it starts, its last character that is not a space, and the spaces behind it. -/
structure Text (mem : List Nat) (b range : Nat) (tail : List Nat) : Prop where
  start : b ≤ range
  inside : range < mem.length
  small : range < b + 2 ^ 32
  last : isSpace (unit mem range) = false
  blank : IsSpaces tail
  behind : slice mem (range + 1) (range + 1 + tail.length) = tail

variable {mem : List Nat} {b range : Nat} {tail : List Nat}

/-- The units that a parser has passed are spaces. -/
theorem At.passed (stands : At mem range parser p) : IsSpaces (slice mem p parser.current) := by
  obtain ⟨w, spaces, left, position⟩ := stands.spaces
  rw [position, slice_eq left]
  exact spaces

/-- The machine stands in the text before a value. -/
structure TokenAt (mem : List Nat) (b range : Nat) (parser : Parser) (fs : List Frame) (p : Nat) : Prop where
  low : b ≤ p
  high : p ≤ range
  stands : At mem range parser p
  starts : Open .value fs (slice mem b p)
  top : fs = [] → parser.end_ = range

/-- The machine stands behind a value of the text. -/
structure BehindAt (mem : List Nat) (b range : Nat) (parser : Parser) (fs : List Frame) (v : Value) (p : Nat) : Prop where
  low : b ≤ p
  high : p ≤ range + 1
  stands : At mem range parser p
  parts : ∃ t w s, slice mem b p = t ++ w ++ s ∧ Open .value fs t ∧ IsSpaces w ∧ (fs = [] → TopValue v s) ∧
    (fs ≠ [] → IsValue NestedNumber v s)
  inner : fs ≠ [] → p ≤ range
  comma : fs ≠ [] → ∀ n, v = .number n → ¬ CommaAhead mem p range

/-- The parser stands at the first character of a value. -/
structure CharacterAt (mem : List Nat) (b range : Nat) (parser : Parser) (fs : List Frame) (p : Nat) : Prop where
  low : b ≤ p
  le : p ≤ parser.current
  high : parser.current ≤ range
  spaces : IsSpaces (slice mem p parser.current)
  stands : At mem range parser parser.current
  starts : Open .value fs (slice mem b p)
  top : fs = [] → parser.end_ = range

theorem CharacterAt.content (here : CharacterAt mem b range parser fs p) :
    slice mem b parser.current = slice mem b p ++ slice mem p parser.current :=
  slice_append mem here.low here.le

theorem CharacterAt.start (here : CharacterAt mem b range parser fs p) : b ≤ parser.current :=
  Nat.le_trans here.low here.le

def Stays (mem : List Nat) (b range : Nat) (c : Config) : Prop :=
  match c.mode with
  | .token => ∃ p, TokenAt mem b range c.parser c.frames p
  | .behind v => ∃ p, BehindAt mem b range c.parser c.frames v p

section Steps

variable (text : Text mem b range tail)

include text

theorem At.le_range (stands : At mem range parser p) (le : p ≤ range) : parser.current ≤ range := by
  by_contra beyond
  have space := stands.passed _ (mem_slice.mpr ⟨range, le, Nat.lt_of_not_le beyond, rfl⟩)
  rw [text.last] at space
  cases space

/-- The next character. -/
theorem At.next_character (stands : At mem range parser p) (le : p ≤ range) :
    ∃ parser', skipStartWhiteSpace mem parser = parser' ∧ p ≤ parser'.current ∧ parser'.current ≤ range ∧
      IsSpaces (slice mem p parser'.current) ∧ At mem range parser' parser'.current := by
  have skipped := stands.skip
  exact ⟨_, rfl, skipped.le, skipped.le_range text le, skipped.passed, at_self mem skipped.limit skipped.ends⟩

/-! ## Strings -/

/-- A string that ends behind the text. -/
theorem cut_of_string {e : Expect} {r : List Nat} {close : Nat} (outer : Open e fs t)
    (nested : e = .value → fs ≠ []) (spaces : IsSpaces w) (content : slice mem b q = t ++ w) (le : b ≤ q)
    (inside : q ≤ range) (quote : unit mem q = 0x22) {fast : Bool}
    (found : readJsonStringRange mem range (q + 1) = some (close, fast)) (behind : range < close)
    (chars : IsChars (slice mem (q + 1) close) r) : Cut (slice mem b (range + 1)) tail := by
  obtain ⟨_, closing, _, _⟩ := stringRangeFrom_spec found
  -- the spaces behind the text are in the string
  have beyond : range + 1 + tail.length ≤ close := by
    by_contra below
    have member : unit mem close ∈ tail := by
      rw [← text.behind]
      exact mem_slice.mpr ⟨close, by omega, by omega, rfl⟩
    have space := text.blank _ member
    rw [closing] at space
    cases space
  have blank : ∀ c ∈ tail, c = 0x20 := by
    intro c member
    have space := text.blank c member
    rw [← text.behind] at member
    obtain ⟨k, low, high, rfl⟩ := mem_slice.mp member
    have legal := legal_of_isChars chars _ (mem_slice.mpr ⟨k, by omega, by omega, rfl⟩)
    rcases isSpace_iff.mp space with same | same | same | same <;> omega
  rcases Nat.eq_or_lt_of_le inside with rfl | before
  · rw [slice_snoc mem le, content, quote]
    exact .quote outer nested spaces blank
  · obtain ⟨less, ⟨r', chars'⟩, backslash, escape⟩ := cutEscape_of_run found rfl chars before behind
    have whole : slice mem b (range + 1) = t ++ w ++ 0x22 :: slice mem (q + 1) (range - 1) ++ [0x5C, unit mem range] := by
      have pieces : slice mem q (range + 1) = 0x22 :: (slice mem (q + 1) (range - 1) ++ [0x5C, unit mem range]) := by
        rw [slice_cons (by omega), quote, slice_append mem (show q + 1 ≤ range - 1 by omega) (by omega),
          slice_cons (show range - 1 < range + 1 by omega), backslash, show range - 1 + 1 = range by omega, slice_one]
      rw [slice_append mem le (by omega), content, pieces]
      simp
    rw [whole]
    rcases escape with ⟨letter, n, hex⟩ | ⟨c, escaped⟩
    · have none_ : tail = [] := by
        cases tail with
        | nil => rfl
        | cons c tail =>
          have first := text.behind
          rw [slice_cons (by rw [List.length_cons]; omega), List.cons.injEq] at first
          have space := text.blank c List.mem_cons_self
          rw [← first.1] at space
          have bounds := hexDigit_bounds hex
          rcases isSpace_iff.mp space with same | same | same | same <;> omega
      rw [letter, none_]
      exact .unicode outer nested spaces chars'
    · exact .escape outer nested spaces chars' escaped blank

/-- A name with its colon stays in the text, or the text breaks off. -/
theorem name_sound {parser1 parser2 : Parser} {ps : List (List Nat × Value)} {name : List Nat}
    (outer : Open (.name ps) fs (slice mem b p)) (stands : At mem range parser1 p) (low : b ≤ p)
    (high : p ≤ range) (parsed : parseName mem (skipStartWhiteSpace mem parser1) = .ok (name, parser2)) :
    (∃ e, b ≤ e ∧ e ≤ range ∧ At mem range parser2 e ∧ Open .value (.object ps name :: fs) (slice mem b e)) ∨
      Cut (slice mem b (range + 1)) tail := by
  obtain ⟨parser, skip, le, inside, spaces, stands'⟩ := stands.next_character text high
  rw [skip] at parsed
  have quote := parseName_quote parsed
  have content : slice mem b parser.current = slice mem b p ++ slice mem p parser.current := slice_append mem low le
  rw [parseName, if_neg (not_not.mpr quote)] at parsed
  cases inner : parseString mem true parser with
  | error message =>
    rw [inner] at parsed
    cases parsed
  | ok pair =>
    obtain ⟨name', parser3⟩ := pair
    obtain ⟨close, found, first, closing, away, chars, behind⟩ := isChars_of_parseString inner
    rw [stands'.limit] at found away
    by_cases beyond : range < close
    · right
      exact cut_of_string text outer (fun no => by cases no) spaces content (by omega) inside quote found beyond chars
    · have stands3 := stands'.of_behind behind (by omega)
      obtain ⟨parser4, skip4, le4, inside4, spaces4, stands4⟩ := stands3.next_character text (by omega)
      rw [inner] at parsed
      simp only [Bind.bind, Except.bind, skip4] at parsed
      split at parsed
      · cases parsed
      case isFalse colon =>
        rw [not_not] at colon
        cases parsed
        have whole : slice mem b (parser4.current + 1) = slice mem b p ++ slice mem p parser.current ++
            0x22 :: slice mem (parser.current + 1) close ++ 0x22 :: slice mem (close + 1) parser4.current ++ [0x3A] := by
          rw [slice_snoc mem (show b ≤ parser4.current by omega), colon,
            slice_append mem (show b ≤ close + 1 by omega) le4, slice_snoc mem (show b ≤ close by omega), closing,
            slice_append mem (show b ≤ parser.current + 1 by omega) first,
            slice_snoc mem (show b ≤ parser.current by omega), quote, content]
          simp
        rcases Nat.eq_or_lt_of_le inside4 with last | before
        · right
          rw [← last, whole]
          exact .colon outer spaces chars spaces4
        · refine .inl ⟨parser4.current + 1, by omega, before, stands4.next, ?_⟩
          rw [whole]
          exact .name outer spaces chars spaces4

/-! ## Numbers -/

/-- A number stays in the text, or the text breaks off in it. -/
theorem number_sound {parser' : Parser} {n : JSNumber} (outer : Open .value (f :: fs) t) (spaces : IsSpaces w)
    (content : slice mem b parser.current = t ++ w) (limit : parser.range = range) (low : b ≤ parser.current)
    (high : parser.current ≤ range) (parsed : parseNumber mem true parser = .ok (n, parser')) :
    (∃ e, parser.current < e ∧ e ≤ range ∧ NestedNumber (slice mem parser.current e) ∧
      n = numberOf (slice mem parser.current e) ∧ Behind parser parser' e ∧ ¬ CommaAhead mem e range) ∨
      Cut (slice mem b (range + 1)) tail := by
  by_cases first : firstDigit mem parser.current ≤ range
  · by_cases zero : unit mem (firstDigit mem parser.current) = 0x30 ∧ firstDigit mem parser.current = range
    · right
      obtain ⟨digit, same⟩ := zero
      by_cases minus : unit mem parser.current = 0x2D
      · rw [firstDigit, if_pos minus] at digit same
        rw [← same, slice_snoc mem (by omega), digit, slice_snoc mem low, content, minus]
        exact .zero outer spaces (.inr rfl)
      · rw [firstDigit, if_neg minus] at digit same
        have whole : slice mem b (range + 1) = t ++ w ++ [] ++ [0x30] := by
          rw [← same, slice_snoc mem low, content, digit, List.append_nil]
        rw [whole]
        exact .zero outer spaces (.inl rfl)
    · left
      rw [← limit] at first ⊢
      refine nested_of_parseNumber (by rw [limit]; exact text.inside) first (fun isZero => ?_) parsed
      rw [limit] at first ⊢
      exact Nat.lt_of_le_of_ne first fun same => zero ⟨isZero, same⟩
  · -- only a minus can be the last character
    right
    have minus : unit mem parser.current = 0x2D := by
      by_contra other
      rw [firstDigit, if_neg other] at first
      exact first high
    have start : firstDigit mem parser.current = parser.current + 1 := if_pos minus
    have same : parser.current = range := by omega
    have none_ : tail = [] := by
      cases tail with
      | nil => rfl
      | cons c tail =>
        exfalso
        have ahead := text.behind
        rw [slice_cons (by rw [List.length_cons]; omega), List.cons.injEq] at ahead
        have space := text.blank c List.mem_cons_self
        rw [← ahead.1] at space
        have part : isDigit (unit mem (range + 1)) = false := by
          by_contra digit
          rw [Bool.not_eq_false] at digit
          rw [not_space_of_digit digit] at space
          cases space
        have stop : scan mem isDigit parser.range (parser.current + 1) = parser.current + 1 :=
          scan_eq (by decide) (Nat.le_refl _) (fun i first second => by omega) (.inr (by rw [same]; exact part))
        have zero : unit mem (parser.current + 1) ≠ 0x30 := by
          intro is
          rw [same] at is
          rw [is] at part
          cases part
        have found : readNumberRange mem parser.range parser.current = none := by
          rw [readNumberRange_eq, start, if_neg zero, stop, if_pos rfl]
        rw [parseNumber] at parsed
        simp only [if_true, found] at parsed
        cases parsed
    have whole : slice mem b (range + 1) = t ++ w ++ [0x2D] := by
      rw [← same, slice_snoc mem low, content, minus]
    rw [whole, none_]
    exact .minus outer spaces

/-! ## Steps -/

/-- Behind a literal, an array or an object. -/
theorem stays_behind (low : b ≤ p) (high : p ≤ range + 1) (stands : At mem range parser p)
    (content : slice mem b p = t ++ w ++ s) (outer : Open .value fs t) (spaces : IsSpaces w)
    (value : IsValue NestedNumber v s) (string : ∀ r, v ≠ .string r) (number : ∀ n, v ≠ .number n) :
    Stays mem b range ⟨parser, fs, .behind v⟩ ∨ Cut (slice mem b (range + 1)) tail := by
  have parts : ∃ t w s, slice mem b p = t ++ w ++ s ∧ Open .value fs t ∧ IsSpaces w ∧ (fs = [] → TopValue v s) ∧
      (fs ≠ [] → IsValue NestedNumber v s) :=
    ⟨t, w, s, content, outer, spaces, fun _ => .nested value string number, fun _ => value⟩
  by_cases inner : fs ≠ [] → p ≤ range
  · exact .inl ⟨p, low, high, stands, parts, inner, fun _ n same => absurd same (number n)⟩
  · rw [Classical.not_imp] at inner
    obtain ⟨nested, beyond⟩ := inner
    obtain rfl : p = range + 1 := by omega
    cases fs with
    | nil => exact absurd rfl nested
    | cons f fs =>
      right
      rw [content]
      exact .value outer spaces value string number

theorem literal_sound {literal : List Nat} (here : CharacterAt mem b range parser fs p)
    (head : literal = unit mem parser.current :: literal.tail) (value : IsValue NestedNumber v literal)
    (string : ∀ r, v ≠ .string r) (number : ∀ n, v ≠ .number n)
    (step : tokenBehind fs id (parseLiteral mem literal v parser) = .inl c) :
    Stays mem b range c ∨ Cut (slice mem b (range + 1)) tail := by
  have start := here.start
  have high := here.high
  have small := text.small
  have long : 0 < literal.length := by
    rw [head]
    exact Nat.succ_pos _
  obtain ⟨v', parser', parsed, rfl⟩ := tokenBehind_inl step
  rw [parseLiteral] at parsed
  split at parsed
  · cases parsed
  case isFalse length =>
    rw [here.stands.limit, Int.emod_eq_of_lt (by omega) (by omega)] at length
    split at parsed
    case isTrue same =>
      cases parsed
      have token : slice mem parser.current (parser.current + literal.length) = literal := by
        rw [slice_cons (by omega), same, ← head]
      refine stays_behind text (p := parser.current + literal.length) (by omega) (by omega) ?_ ?_ here.starts here.spaces
        value string number
      · refine at_self mem here.stands.limit ?_
        rcases here.stands.ends with before | limit
        · exact .inl (by simp only; omega)
        · exact .inr limit
      · rw [slice_append mem start (by omega), here.content, token]
    case isFalse => cases parsed

theorem number_token_sound (here : CharacterAt mem b range parser fs p)
    (step : tokenBehind fs .number (parseNumber mem (!fs.isEmpty) parser) = .inl c) :
    Stays mem b range c ∨ Cut (slice mem b (range + 1)) tail := by
  have start := here.start
  have high := here.high
  obtain ⟨n, parser', parsed, rfl⟩ := tokenBehind_inl step
  cases fs with
  | nil =>
    have ends := here.top rfl
    have parsed' : parseNumber mem false parser = .ok (n, parser') := parsed
    obtain ⟨check, rfl, rfl⟩ := (parseNumber_top_iff (by omega) (by rw [ends]; exact text.inside)).mp parsed'
    rw [ends] at check ⊢
    have number := of_codeNumber check fun t x same => by
      rw [slice_snoc mem high] at same
      obtain ⟨_, equal⟩ := List.append_inj' same rfl
      rw [List.singleton_inj] at equal
      rw [← equal]
      exact text.last
    left
    refine ⟨range + 1, by omega, Nat.le_refl _, at_self mem here.stands.limit (.inl (by simp only [ends]; omega)),
      ⟨_, _, _, ?_, here.starts, here.spaces, fun _ => .number number, fun no => absurd rfl no⟩,
      fun no => absurd rfl no, fun no => absurd rfl no⟩
    rw [slice_append mem start (by omega), here.content]
  | cons f fs =>
    have parsed' : parseNumber mem true parser = .ok (n, parser') := parsed
    rcases number_sound text here.starts here.spaces here.content here.stands.limit start high parsed' with
      ⟨e, less, ends, number, rfl, behind, away⟩ | cut
    · left
      refine ⟨e, by omega, by omega, here.stands.of_behind behind (by omega), ⟨_, _, _, ?_, here.starts, here.spaces,
        fun no => absurd no (by simp), fun _ => .number number⟩, fun _ => ends, fun _ _ _ => away⟩
      rw [slice_append mem start (by omega), here.content]
    · exact .inr cut

theorem string_token_sound (here : CharacterAt mem b range parser fs p)
    (quote : unit mem parser.current = 0x22)
    (step : tokenBehind fs .string (parseString mem (!fs.isEmpty) parser) = .inl c) :
    Stays mem b range c ∨ Cut (slice mem b (range + 1)) tail := by
  have start := here.start
  have high := here.high
  obtain ⟨r, parser', parsed, rfl⟩ := tokenBehind_inl step
  have whole : ∀ e, parser.current < e → unit mem e = 0x22 → slice mem b (e + 1) =
      slice mem b p ++ slice mem p parser.current ++ (0x22 :: slice mem (parser.current + 1) e ++ [0x22]) := by
    intro e less close
    rw [slice_snoc mem (show b ≤ e by omega), close, slice_append mem (show b ≤ parser.current + 1 by omega) less,
      slice_snoc mem start, quote, here.content]
    simp
  cases fs with
  | nil =>
    have ends := here.top rfl
    have parsed' : parseString mem false parser = .ok (r, parser') := parsed
    obtain ⟨less, close, legal, chars, rfl⟩ :=
      (parseString_top_iff (by omega) (by rw [here.stands.limit, ends])).mp parsed'
    left
    rw [ends] at less close legal chars
    refine ⟨range + 1, by omega, Nat.le_refl _, ?_, ⟨_, _, _, whole range less close, here.starts, here.spaces,
      fun _ => .string chars legal, fun no => absurd rfl no⟩, fun no => absurd rfl no, fun no => absurd rfl no⟩
    rw [ends]
    refine at_self mem here.stands.limit (.inl ?_)
    simp only
    split <;> omega
  | cons f fs =>
    have parsed' : parseString mem true parser = .ok (r, parser') := parsed
    obtain ⟨close, found, first, closing, away, chars, behind⟩ := isChars_of_parseString parsed'
    rw [here.stands.limit] at found away
    by_cases beyond : range < close
    · right
      exact cut_of_string text here.starts (fun _ => by simp) here.spaces here.content start high quote found beyond chars
    · left
      exact ⟨close + 1, by omega, by omega, here.stands.of_behind behind (by omega),
        ⟨_, _, _, whole close first closing, here.starts, here.spaces, fun no => absurd no (by simp),
          fun _ => .string chars⟩, fun _ => by omega, fun _ n no => by cases no⟩

/-- The first character behind an opening bracket. -/
theorem CharacterAt.behind_bracket (here : CharacterAt mem b range parser fs p)
    (before : parser.current < range) :
    ∃ parser', getNextNonSpaceChar mem parser = parser' ∧ parser.current + 1 ≤ parser'.current ∧
      parser'.current ≤ range ∧ IsSpaces (slice mem (parser.current + 1) parser'.current) ∧
      At mem range parser' (parser.current + 1) ∧ At mem range parser' parser'.current := by
  obtain ⟨parser', skip, le, high, spaces, stands⟩ := here.stands.next.next_character text before
  refine ⟨parser', skip, le, high, spaces, ?_, stands⟩
  rw [← skip]
  exact here.stands.next.skip

/-- Behind an empty array or object. -/
theorem empty_sound {parser' : Parser} (here : CharacterAt mem b range parser fs p)
    (le : parser.current + 1 ≤ parser'.current) (high : parser'.current ≤ range)
    (stands : At mem range parser' parser'.current)
    (token : slice mem parser.current (parser'.current + 1) = s) (value : IsValue NestedNumber v s)
    (string : ∀ r, v ≠ .string r) (number : ∀ n, v ≠ .number n) :
    Stays mem b range ⟨getNextNonSpaceChar mem parser', fs, .behind v⟩ ∨ Cut (slice mem b (range + 1)) tail := by
  have start := here.start
  refine stays_behind text (p := parser'.current + 1) (by omega) (by omega) stands.next.skip ?_ here.starts here.spaces
    value string number
  rw [slice_append mem start (by omega), here.content, token]

theorem object_sound (here : CharacterAt mem b range parser fs p) (brace : unit mem parser.current = 0x7B)
    (step : (if unit mem (getNextNonSpaceChar mem parser).current = 0x7D then
        .inl ⟨getNextNonSpaceChar mem (getNextNonSpaceChar mem parser), fs, .behind (.object [])⟩
      else
        match parseName mem (skipStartWhiteSpace mem (getNextNonSpaceChar mem parser)) with
        | .error message => .inr (.syntaxError message)
        | .ok (name, parser) => .inl ⟨parser, .object [] name :: fs, .token⟩ : Config ⊕ Outcome) = .inl c) :
    Stays mem b range c ∨ Cut (slice mem b (range + 1)) tail := by
  have start := here.start
  have whole : slice mem b (parser.current + 1) = slice mem b p ++ slice mem p parser.current ++ [0x7B] := by
    rw [slice_snoc mem start, here.content, brace]
  rcases Nat.eq_or_lt_of_le here.high with last | before
  · right
    rw [← last, whole]
    exact .object here.starts here.spaces
  · obtain ⟨parser', next, le, high, spaces, stands, self⟩ := here.behind_bracket text before
    rw [next] at step
    split at step
    case isTrue close =>
      cases step
      refine empty_sound text here le high self ?_ (.emptyObject spaces) (by simp) (by simp)
      rw [slice_cons (by omega), brace, slice_snoc mem le, close]
      rfl
    case isFalse =>
      split at step
      · cases step
      case h_2 name parser2 parsed =>
        cases step
        have outer : Open (.name []) fs (slice mem b (parser.current + 1)) := by
          rw [whole]
          exact .object here.starts here.spaces
        rcases name_sound text outer stands (by omega) before parsed with ⟨e, low, high', stands', opens⟩ | cut
        · exact .inl ⟨e, low, high', stands', opens, fun no => absurd no (by simp)⟩
        · exact .inr cut

theorem array_sound (here : CharacterAt mem b range parser fs p) (bracket : unit mem parser.current = 0x5B)
    (step : (if unit mem (getNextNonSpaceChar mem parser).current = 0x5D then
        .inl ⟨getNextNonSpaceChar mem (getNextNonSpaceChar mem parser), fs, .behind (.array [])⟩
      else .inl ⟨getNextNonSpaceChar mem parser, .array [] :: fs, .token⟩ : Config ⊕ Outcome) = .inl c) :
    Stays mem b range c ∨ Cut (slice mem b (range + 1)) tail := by
  have start := here.start
  have whole : slice mem b (parser.current + 1) = slice mem b p ++ slice mem p parser.current ++ [0x5B] := by
    rw [slice_snoc mem start, here.content, bracket]
  rcases Nat.eq_or_lt_of_le here.high with last | before
  · right
    rw [← last, whole]
    exact .array here.starts here.spaces
  · obtain ⟨parser', next, le, high, spaces, stands, self⟩ := here.behind_bracket text before
    rw [next] at step
    split at step
    case isTrue close =>
      cases step
      refine empty_sound text here le high self ?_ (.emptyArray spaces) (by simp) (by simp)
      rw [slice_cons (by omega), bracket, slice_snoc mem le, close]
      rfl
    case isFalse =>
      cases step
      refine .inl ⟨parser.current + 1, by omega, before, stands, ?_, fun no => absurd no (by simp)⟩
      rw [whole]
      exact .array here.starts here.spaces

/-- A step from before a value stays in the text, or the text breaks off. -/
theorem token_sound (stand : TokenAt mem b range parser fs p) (step : tokenStep mem parser fs = .inl c) :
    Stays mem b range c ∨ Cut (slice mem b (range + 1)) tail := by
  obtain ⟨parser', skip, le, high, spaces, stands⟩ := stand.stands.next_character text stand.high
  have here : CharacterAt mem b range parser' fs p :=
    ⟨stand.low, le, high, spaces, stands, stand.starts, fun empty => by rw [← skip]; exact stand.top empty⟩
  have character := parseToken_starts (unit mem parser'.current)
  simp only [tokenStep, skip] at step
  cases token : parseToken (unit mem parser'.current) with
  | object =>
    rw [token] at character
    simp only [token] at step
    exact object_sound text here character step
  | array =>
    rw [token] at character
    simp only [token] at step
    exact array_sound text here character step
  | number =>
    simp only [token] at step
    exact number_token_sound text here step
  | string =>
    rw [token] at character
    simp only [token] at step
    exact string_token_sound text here character step
  | literalTrue =>
    rw [token] at character
    simp only [token] at step
    exact literal_sound text here (by rw [show unit mem _ = _ from character]; rfl) .true (by simp) (by simp) step
  | literalFalse =>
    rw [token] at character
    simp only [token] at step
    exact literal_sound text here (by rw [show unit mem _ = _ from character]; rfl) .false (by simp) (by simp) step
  | literalNull =>
    rw [token] at character
    simp only [token] at step
    exact literal_sound text here (by rw [show unit mem _ = _ from character]; rfl) .null (by simp) (by simp) step
  | tokenIllegal =>
    simp only [token] at step
    cases step

/-- A comma that is the last character of the text. -/
theorem cut_of_comma (content : slice mem b p = t ++ w ++ s) (low : b ≤ p) (le : p ≤ q) (last : q = range)
    (outer : Open .value (f :: fs) t) (before : IsSpaces w) (value : IsValue NestedNumber v s)
    (after : IsSpaces (slice mem p q)) (comma : unit mem q = 0x2C)
    (away : ∀ n, v = .number n → ¬ CommaAhead mem p range) : Cut (slice mem b (range + 1)) tail := by
  rw [← last, slice_snoc mem (by omega), slice_append mem low le, content, comma]
  refine .comma outer before value after fun n same => ?_
  rcases Nat.eq_or_lt_of_le le with equal | less
  · rw [equal, slice_self]
  · refine absurd ⟨by omega, fun i first second => ?_, by rw [← last]; exact comma⟩ (away n same)
    exact after _ (mem_slice.mpr ⟨i, first, by omega, rfl⟩)

/-- A step from behind a value stays in the text, or the text breaks off. -/
theorem behind_sound (stand : BehindAt mem b range parser fs v p) (step : behindStep mem parser v fs = .inl c) :
    Stays mem b range c ∨ Cut (slice mem b (range + 1)) tail := by
  have low := stand.low
  obtain ⟨t, w, s, content, outer, before, _, nested⟩ := stand.parts
  cases fs with
  | nil =>
    rw [behindStep] at step
    split at step <;> cases step
  | cons f fs =>
    have value := nested (by simp)
    have inner := stand.inner (by simp)
    obtain ⟨parser', skip, le, high, after, stands⟩ := stand.stands.next_character text inner
    have whole : slice mem b (parser'.current + 1) = t ++ w ++ s ++ slice mem p parser'.current ++
        [unit mem parser'.current] := by
      rw [slice_snoc mem (by omega), slice_append mem low le, content]
    cases f with
    | array vs =>
      simp only [behindStep, skip] at step
      split at step
      case isTrue comma =>
        cases step
        rcases Nat.eq_or_lt_of_le high with last | less
        · exact .inr (cut_of_comma text content low le last outer before value after comma (stand.comma (by simp)))
        · refine .inl ⟨parser'.current + 1, by omega, less, stands.next, ?_, fun no => absurd no (by simp)⟩
          rw [whole, comma]
          exact .element outer before value after
      case isFalse =>
        split at step
        · cases step
        case isFalse close =>
          cases step
          rw [not_not] at close
          obtain ⟨t0, w0, s0, same, outer0, spaces0, value0⟩ := close_array outer before value after
          refine stays_behind text (p := parser'.current + 1) (by omega) (by omega) stands.next ?_ outer0 spaces0 value0
            (by simp) (by simp)
          rw [whole, close, same]
    | object ps k =>
      simp only [behindStep, skip] at step
      split at step
      case isTrue comma =>
        split at step
        · cases step
        case h_2 name parser2 parsed =>
          cases step
          rcases Nat.eq_or_lt_of_le high with last | less
          · exact .inr (cut_of_comma text content low le last outer before value after comma (stand.comma (by simp)))
          · have member : Open (.name (ps ++ [(k, v)])) fs (slice mem b (parser'.current + 1)) := by
              rw [whole, comma]
              exact .member outer before value after
            rcases name_sound text member stands.next (by omega) less parsed with ⟨e, low', high', stands', opens⟩ | cut
            · exact .inl ⟨e, low', high', stands', opens, fun no => absurd no (by simp)⟩
            · exact .inr cut
      case isFalse =>
        split at step
        · cases step
        case isFalse close =>
          cases step
          rw [not_not] at close
          obtain ⟨t0, w0, s0, same, outer0, spaces0, value0⟩ := close_object outer before value after
          refine stays_behind text (p := parser'.current + 1) (by omega) (by omega) stands.next ?_ outer0 spaces0 value0
            (by simp) (by simp)
          rw [whole, close, same]

omit text in
theorem tokenStep_ne_value : tokenStep mem parser fs ≠ .inr (.value v) := by
  have behind : ∀ {α : Type} {make : α → Value} {result : Except String (α × Parser)},
      tokenBehind fs make result ≠ .inr (.value v) := by
    intro α make result no
    cases result with
    | error message => cases no
    | ok pair => cases no
  intro step
  simp only [tokenStep] at step
  split at step
  · split at step
    · cases step
    · split at step <;> cases step
  · split at step <;> cases step
  · exact behind step
  · exact behind step
  · exact behind step
  · exact behind step
  · exact behind step
  · cases step

omit text in
theorem behindStep_ne_value {v' : Value} : behindStep mem parser v (f :: fs) ≠ .inr (.value v') := by
  intro step
  cases f with
  | array vs =>
    simp only [behindStep] at step
    split at step
    · cases step
    · split at step <;> cases step
  | object ps k =>
    simp only [behindStep] at step
    split at step
    · split at step <;> cases step
    · split at step <;> cases step

/-- The last step, with a value. -/
theorem leave_sound (stays : Stays mem b range c) (step : machineStep mem c = .inr (.value v)) :
    CodeText v (slice mem b (range + 1)) := by
  obtain ⟨parser, fs, mode⟩ := c
  cases mode with
  | token => exact absurd step tokenStep_ne_value
  | behind v' =>
    obtain ⟨p, stand⟩ := stays
    cases fs with
    | nil =>
      change behindStep mem parser v' [] = _ at step
      rw [behindStep] at step
      split at step
      · cases step
      case isFalse beyond =>
        cases step
        obtain ⟨t, w, s, content, outer, spaces, value, _⟩ := stand.parts
        have full : p = range + 1 := by
          have high := stand.high
          by_contra other
          have bound := stand.stands.le_range text (show p ≤ range by omega)
          have limit := stand.stands.limit
          simp only at beyond limit bound
          omega
        rw [full, open_nil outer, List.nil_append] at content
        exact ⟨w, s, [], by rw [content, List.append_nil], spaces, value rfl, isSpaces_nil⟩
    | cons f fs => exact absurd step behindStep_ne_value

/-- A run from a state in the text. -/
theorem iter_sound {n : Nat} (stays : Stays mem b range c)
    (run : iter (machineStep mem) n c = some (.value v)) :
    CodeText v (slice mem b (range + 1)) ∨ Cut (slice mem b (range + 1)) tail := by
  induction n generalizing c with
  | zero => cases run
  | succ n ih =>
    cases next : machineStep mem c with
    | inl c' =>
      rw [iter_inl n next] at run
      have step : Stays mem b range c' ∨ Cut (slice mem b (range + 1)) tail := by
        obtain ⟨parser, fs, mode⟩ := c
        cases mode with
        | token =>
          obtain ⟨p, stand⟩ := stays
          exact token_sound text stand next
        | behind v' =>
          obtain ⟨p, stand⟩ := stays
          exact behind_sound text stand next
      rcases step with stays' | cut
      · exact ih stays' run
      · exact .inr cut
    | inr r =>
      rw [iter_inr n next] at run
      cases run
      exact .inl (leave_sound text stays next)

end Steps

/-- A text that breaks off, with the spaces at its end. -/
def BreaksOff (text : List Nat) : Prop := ∃ body tail, text = body ++ tail ∧ IsSpaces tail ∧ Cut body tail

/-- A text that is accepted is a text of the code, or it breaks off. -/
theorem launch_sound {text rest : List Nat} (left : mem.drop b = text ++ rest) (short : text.length < 2 ^ 32)
    (run : launch mem b (b + text.length) = some (.value v)) : CodeText v text ∨ BreaksOff text := by
  rcases blank_or_last text with blank | ⟨t, c, tail, rfl, last, blank⟩
  · obtain ⟨message, failed⟩ := launch_blank left blank
    rw [failed] at run
    cases run
  · rw [launch_eq left last blank] at run
    have whole : t ++ c :: tail = t ++ [c] ++ tail := by simp
    rw [whole, List.append_assoc] at left
    rw [List.length_append, List.length_cons] at short
    have here := drop_append (by rw [left, List.append_assoc] : mem.drop b = t ++ ([c] ++ (tail ++ rest)))
    have body : slice mem b (b + t.length + 1) = t ++ [c] := by
      have token := slice_eq left
      rwa [List.length_append, List.length_singleton, ← Nat.add_assoc] at token
    have text : Text mem b (b + t.length) tail := by
      refine ⟨by omega, lt_length_of_drop here, by omega, by rw [unit_eq here]; exact last, blank, ?_⟩
      exact slice_eq (drop_append here)
    have stays : Stays mem b (b + t.length) (startConfig b (b + t.length)) := by
      refine ⟨b, Nat.le_refl b, by omega, at_start mem b _, ?_, fun _ => rfl⟩
      rw [slice_self]
      exact .start
    rcases iter_sound text stays run with ⟨w, s, w', same, spaces, value, spaces'⟩ | cut
    · left
      rw [body] at same
      refine ⟨w, s, w' ++ tail, by rw [whole, same, List.append_assoc], spaces, value, ?_⟩
      intro x inside
      rcases List.mem_append.mp inside with first | second
      · exact spaces' x first
      · exact blank x second
    · right
      rw [body] at cut
      exact ⟨t ++ [c], tail, whole, blank, cut⟩

end Json

end ArkRuntime
