import ArkRuntime.Json.Runs

/-!
# Launching the JSON parser

The machine always comes to an end: every step reads a character further on. A text that the code takes is read to
its end, whatever is in the memory around it.
-/

namespace ArkRuntime

namespace Json

variable {mem : List Nat} {range : Nat}

/-! ## Every run ends -/

theorem skip_le (mem : List Nat) (parser : Parser) : parser.current ≤ (skipStartWhiteSpace mem parser).current :=
  (scan_spec mem (p := isSpace) (by decide) parser.end_ parser.current).1

theorem next_lt (mem : List Nat) (parser : Parser) : parser.current < (getNextNonSpaceChar mem parser).current :=
  Nat.lt_of_lt_of_le (Nat.lt_succ_self _) (skip_le mem { parser with current := parser.current + 1 })

variable {parser parser' : Parser} {v : Value} {b : Nat} {rest w s text : List Nat} {c : Config} {fs : List Frame}

theorem parseString_lt {inObjOrArr : Bool} {r : List Nat}
    (top : inObjOrArr = false → parser.current ≤ parser.end_)
    (parsed : parseString mem inObjOrArr parser = .ok (r, parser')) : parser.current < parser'.current := by
  cases inObjOrArr with
  | true =>
    obtain ⟨e, _, le, _, _, _, behind⟩ := isChars_of_parseString parsed
    rw [behind.position]
    omega
  | false =>
    have le := top rfl
    rw [parseString, if_neg (by decide)] at parsed
    split at parsed
    · cases parsed
    · split at parsed
      · cases parsed
      · split at parsed
        · cases parsed
          simp only
          omega
        · split at parsed
          · cases parsed
          · cases parsed
            simp only
            omega

theorem readNumberEnd_le {q e : Nat} (found : readNumberEnd mem range q = some (.slow e)) :
    q ≤ e + 1 ∧ (q ≠ range → isNumberPart (unit mem q) = true → q < e + 1) := by
  obtain ⟨le, _, stops⟩ := scan_spec mem (p := isNumberPart) (by decide) range q
  have same : scan mem (fun c => isDigit c || isNumberSignalCharacter c) range q = scan mem isNumberPart range q := rfl
  have value : e = scan mem isNumberPart range q - 1 := by
    simp only [readNumberEnd, same] at found
    split at found
    case isTrue full =>
      cases found
      rw [full]
    case isFalse =>
      split at found
      · split at found
        · exact (NumberRange.slow.inj (Option.some.inj found)).symm
        · cases found
      · split at found
        · exact (NumberRange.slow.inj (Option.some.inj found)).symm
        · cases found
  refine ⟨by omega, fun other part => ?_⟩
  rcases Nat.eq_or_lt_of_le le with equal | less
  · rw [← equal] at stops
    rcases stops with limit | no
    · exact absurd limit other
    · rw [part] at no
      cases no
  · omega

theorem parseNumber_lt {inObjOrArr : Bool} {n : JSNumber}
    (top : inObjOrArr = false → parser.current ≤ parser.end_)
    (parsed : parseNumber mem inObjOrArr parser = .ok (n, parser')) : parser.current < parser'.current := by
  cases inObjOrArr with
  | false =>
    have le := top rfl
    rw [parseNumber] at parsed
    simp only [Bool.false_eq_true, if_false] at parsed
    split at parsed
    · cases parsed
      simp only
      omega
    · cases parsed
  | true =>
    have start : parser.current ≤ firstDigit mem parser.current := by
      rw [firstDigit]
      split <;> omega
    rw [parseNumber] at parsed
    simp only [if_true] at parsed
    cases found : readNumberRange mem parser.range parser.current with
    | none =>
      rw [found] at parsed
      cases parsed
    | some x =>
      rw [found] at parsed
      rw [readNumberRange_eq] at found
      obtain ⟨le, passed, _⟩ := scan_spec mem (p := isDigit) (by decide) parser.range (firstDigit mem parser.current)
      by_cases zero : unit mem (firstDigit mem parser.current) = 0x30
      · rw [if_pos zero] at found
        cases x with
        | fast i c => exact absurd found readNumberEnd_ne_fast
        | slow e =>
          have bound := (readNumberEnd_le found).1
          simp only at parsed
          split at parsed
          · cases parsed
            simp only
            omega
          · cases parsed
      · rw [if_neg zero] at found
        split at found
        · cases found
        case isFalse moved =>
          split at found
          · cases found
            cases parsed
            simp only
            omega
          · cases x with
            | fast i c => exact absurd found readNumberEnd_ne_fast
            | slow e =>
              have first := passed _ (Nat.le_refl _) (by omega)
              have bound := (readNumberEnd_le found).2 first.1 (part_of_digit first.2)
              simp only at parsed
              split at parsed
              · cases parsed
                simp only
                omega
              · cases parsed

theorem parseName_lt {k : List Nat} (parsed : parseName mem parser = .ok (k, parser')) :
    parser.current < parser'.current := by
  rw [parseName] at parsed
  split at parsed
  · cases parsed
  · cases inner : parseString mem true parser with
    | error message =>
      rw [inner] at parsed
      cases parsed
    | ok pair =>
      obtain ⟨r, parser1⟩ := pair
      have first := parseString_lt (fun no => absurd no (by decide)) inner
      have second := skip_le mem parser1
      rw [inner] at parsed
      simp only [Bind.bind, Except.bind] at parsed
      split at parsed
      · cases parsed
      · cases parsed
        simp only
        omega

theorem tokenBehind_inl {α : Type} {make : α → Value} {result : Except String (α × Parser)}
    (step : tokenBehind fs make result = .inl c) :
    ∃ v parser, result = .ok (v, parser) ∧ c = ⟨parser, fs, .behind (make v)⟩ := by
  cases result with
  | error message => cases step
  | ok pair =>
    obtain ⟨v, parser⟩ := pair
    cases step
    exact ⟨v, parser, rfl, rfl⟩

theorem parseLiteral_lt {c : Nat} {v' : Value}
    (parsed : parseLiteral mem (c :: text) v parser = .ok (v', parser')) :
    parser.current < parser'.current := by
  rw [parseLiteral] at parsed
  split at parsed
  · cases parsed
  · split at parsed
    · cases parsed
      simp
    · cases parsed

theorem parseToken_zero : parseToken 0 = .tokenIllegal := rfl

/-- A step from before a token reads on. -/
theorem tokenStep_lt (top : fs = [] → parser.current ≤ parser.end_) (step : tokenStep mem parser fs = .inl c) :
    parser.current < mem.length ∧ parser.current < c.parser.current ∧ (c.frames = [] → ∃ v, c.mode = .behind v) := by
  have skipped := skip_le mem parser
  have topParser : (!fs.isEmpty) = false → (skipStartWhiteSpace mem parser).current ≤
      (skipStartWhiteSpace mem parser).end_ := by
    intro empty
    have le := top (by simpa using empty)
    obtain ⟨_, passed, _⟩ := scan_spec mem (p := isSpace) (by decide) parser.end_ parser.current
    by_contra beyond
    exact (passed parser.end_ le (Nat.lt_of_not_le beyond)).1 rfl
  have inside : ∀ t, parseToken (unit mem (skipStartWhiteSpace mem parser).current) = t → t ≠ .tokenIllegal →
      parser.current < mem.length := by
    intro t token legal
    refine Nat.lt_of_le_of_lt skipped (lt_length_of_unit fun zero => legal ?_)
    rw [← token, zero, parseToken_zero]
  have value : ∀ {α : Type} {make : α → Value} {result : Except String (α × Parser)},
      tokenBehind fs make result = .inl c →
      (∀ v parser', result = .ok (v, parser') → (skipStartWhiteSpace mem parser).current < parser'.current) →
      parser.current < c.parser.current ∧ (c.frames = [] → ∃ v, c.mode = .behind v) := by
    intro α make result run ahead
    obtain ⟨v, parser', ok, rfl⟩ := tokenBehind_inl run
    have := ahead v parser' ok
    exact ⟨by simp only; omega, fun _ => ⟨_, rfl⟩⟩
  have next := next_lt mem (skipStartWhiteSpace mem parser)
  rw [tokenStep] at step
  simp only at step
  cases token : parseToken (unit mem (skipStartWhiteSpace mem parser).current) with
  | object =>
    refine ⟨inside _ token (by decide), ?_⟩
    simp only [token] at step
    split at step
    · cases step
      have again := next_lt mem (getNextNonSpaceChar mem (skipStartWhiteSpace mem parser))
      exact ⟨by simp only; omega, fun _ => ⟨_, rfl⟩⟩
    · split at step
      · cases step
      case h_2 name parser' parsed =>
        cases step
        have named := parseName_lt parsed
        have again := skip_le mem (getNextNonSpaceChar mem (skipStartWhiteSpace mem parser))
        exact ⟨by simp only; omega, fun no => absurd no (by simp)⟩
  | array =>
    refine ⟨inside _ token (by decide), ?_⟩
    simp only [token] at step
    split at step
    · cases step
      have again := next_lt mem (getNextNonSpaceChar mem (skipStartWhiteSpace mem parser))
      exact ⟨by simp only; omega, fun _ => ⟨_, rfl⟩⟩
    · cases step
      exact ⟨by simp only; omega, fun no => absurd no (by simp)⟩
  | number =>
    simp only [token] at step
    exact ⟨inside _ token (by decide), value step fun v parser' ok => parseNumber_lt topParser ok⟩
  | string =>
    simp only [token] at step
    exact ⟨inside _ token (by decide), value step fun v parser' ok => parseString_lt topParser ok⟩
  | literalTrue =>
    simp only [token] at step
    exact ⟨inside _ token (by decide), value step fun v parser' ok => parseLiteral_lt ok⟩
  | literalFalse =>
    simp only [token] at step
    exact ⟨inside _ token (by decide), value step fun v parser' ok => parseLiteral_lt ok⟩
  | literalNull =>
    simp only [token] at step
    exact ⟨inside _ token (by decide), value step fun v parser' ok => parseLiteral_lt ok⟩
  | tokenIllegal =>
    simp only [token] at step
    cases step

/-- A step from behind a value reads on. -/
theorem behindStep_lt (step : behindStep mem parser v fs = .inl c) :
    parser.current < mem.length ∧ parser.current < c.parser.current ∧ (c.frames = [] → ∃ v, c.mode = .behind v) := by
  have skipped := skip_le mem parser
  have inside : unit mem (skipStartWhiteSpace mem parser).current ≠ 0 → parser.current < mem.length :=
    fun nonzero => Nat.lt_of_le_of_lt skipped (lt_length_of_unit nonzero)
  cases fs with
  | nil =>
    rw [behindStep] at step
    split at step <;> cases step
  | cons f fs =>
    cases f with
    | array vs =>
      simp only [behindStep] at step
      split at step
      case isTrue comma =>
        cases step
        exact ⟨inside (by omega), by simp only; omega, fun no => absurd no (by simp)⟩
      case isFalse =>
        split at step
        · cases step
        case isFalse close =>
          cases step
          rw [not_not] at close
          exact ⟨inside (by omega), by simp only; omega, fun _ => ⟨_, rfl⟩⟩
    | object ps key =>
      simp only [behindStep] at step
      split at step
      case isTrue comma =>
        split at step
        · cases step
        case h_2 name parser' parsed =>
          cases step
          have named := parseName_lt parsed
          have next := next_lt mem (skipStartWhiteSpace mem parser)
          exact ⟨inside (by omega), by simp only; omega, fun no => absurd no (by simp)⟩
      case isFalse =>
        split at step
        · cases step
        case isFalse close =>
          cases step
          rw [not_not] at close
          exact ⟨inside (by omega), by simp only; omega, fun _ => ⟨_, rfl⟩⟩

/-- Every run ends within as many steps as there are characters. -/
theorem machine_ends (mem : List Nat) (c : Config) (top : c.frames = [] → c.mode = .token → c.parser.current ≤ c.parser.end_) :
    ∃ r, iter (machineStep mem) (mem.length + 2) c = some r := by
  let inv (n : Nat) (c : Config) : Prop := mem.length + 1 - c.parser.current ≤ n ∧
    (c.frames = [] → c.mode = .token → c.parser.current ≤ c.parser.end_)
  have round : ∀ n c, inv n c → (∃ c' m, machineStep mem c = .inl c' ∧ m < n ∧ inv m c') ∨
      ∃ r, machineStep mem c = .inr r ∧ True := by
    rintro n c ⟨bound, top⟩
    cases next : machineStep mem c with
    | inr r => exact .inr ⟨r, rfl, trivial⟩
    | inl c' =>
      left
      have ahead : c.parser.current < mem.length ∧ c.parser.current < c'.parser.current ∧
          (c'.frames = [] → ∃ v, c'.mode = .behind v) := by
        obtain ⟨parser, fs, mode⟩ := c
        cases mode with
        | token => exact tokenStep_lt (fun empty => top empty rfl) next
        | behind v => exact behindStep_lt next
      refine ⟨c', mem.length + 1 - c'.parser.current, rfl, by omega, Nat.le_refl _, fun empty token => ?_⟩
      obtain ⟨v, mode⟩ := ahead.2.2 empty
      rw [token] at mode
      cases mode
  obtain ⟨r, run, _⟩ := iter_spec round (mem.length + 2) (mem.length + 1) c ⟨by omega, top⟩ (by omega)
  exact ⟨r, run⟩

/-- A run that comes to a last step. -/
theorem iter_of_steps {c' : Config} {r : Outcome} (steps : Steps mem c c')
    (leave : machineStep mem c' = .inr r) : ∃ n, iter (machineStep mem) n c = some r := by
  induction steps using Relation.ReflTransGen.head_induction_on with
  | refl => exact ⟨1, iter_inr 0 leave⟩
  | head step _ ih =>
    obtain ⟨n, run⟩ := ih
    exact ⟨n + 1, (iter_inl n step).trans run⟩

/-- The outcome is the one that the steps come to. -/
theorem machine_eq {c' : Config} {r : Outcome}
    (top : c.frames = [] → c.mode = .token → c.parser.current ≤ c.parser.end_) (steps : Steps mem c c')
    (leave : machineStep mem c' = .inr r) : iter (machineStep mem) (mem.length + 2) c = some r := by
  obtain ⟨n, run⟩ := iter_of_steps steps leave
  obtain ⟨r', run'⟩ := machine_ends mem c top
  have first := iter_mono run (Nat.le_max_left n (mem.length + 2))
  have second := iter_mono run' (Nat.le_max_right n (mem.length + 2))
  rw [run', ← second, first]

/-! ## The end of the text -/

/-- A text is blank or has a last character that is not a space. -/
theorem blank_or_last (text : List Nat) :
    IsSpaces text ∨ ∃ t c w, text = t ++ c :: w ∧ isSpace c = false ∧ IsSpaces w := by
  induction text using List.reverseRecOn with
  | nil => exact .inl fun _ no => absurd no List.not_mem_nil
  | append_singleton text c ih =>
    cases space : isSpace c with
    | false => exact .inr ⟨text, c, [], rfl, space, fun _ no => absurd no List.not_mem_nil⟩
    | true =>
      rcases ih with blank | ⟨t, d, w, rfl, last, spaces⟩
      · refine .inl fun x inside => ?_
        rcases List.mem_append.mp inside with before | same
        · exact blank x before
        · rw [List.mem_singleton.mp same]
          exact space
      · refine .inr ⟨t, d, w ++ [c], by simp, last, fun x inside => ?_⟩
        rcases List.mem_append.mp inside with before | same
        · exact spaces x before
        · rw [List.mem_singleton.mp same]
          exact space

/-- The last character that is not a space. -/
theorem last_unique {t t' w' : List Nat} {c c' : Nat} (same : t ++ c :: w = t' ++ c' :: w')
    (last : isSpace c = false) (last' : isSpace c' = false) (spaces : IsSpaces w) (spaces' : IsSpaces w') :
    t = t' ∧ c = c' ∧ w = w' := by
  have reversed := congrArg List.reverse same
  simp only [List.reverse_append, List.reverse_cons, List.append_assoc, List.singleton_append] at reversed
  obtain ⟨u, left, rest⟩ := spaces_prefix (fun x inside => spaces x (List.mem_reverse.mp inside)) last' reversed
  cases u with
  | nil =>
    rw [List.append_nil, List.reverse_inj] at left
    rw [List.nil_append, List.cons.injEq, List.reverse_inj] at rest
    exact ⟨rest.2, rest.1, left.symm⟩
  | cons x u =>
    rw [List.cons_append, List.cons.injEq] at rest
    have space := spaces' x (List.mem_reverse.mp (by rw [left]; simp))
    rw [← rest.1, last] at space
    cases space

theorem trimFrom_eq {k e q : Nat} (le : q ≤ e) (enough : e ≤ q + k)
    (spaces : ∀ i, q < i → i ≤ e → isSpace (unit mem i) = true) (stops : e < q + k → isSpace (unit mem q) = false) :
    trimFrom mem k e = q := by
  induction k generalizing e with
  | zero =>
    rw [trimFrom]
    omega
  | succ k ih =>
    rw [trimFrom]
    rcases Nat.eq_or_lt_of_le le with rfl | less
    · rw [if_neg (by rw [stops (by omega)]; decide)]
    · rw [if_pos (spaces e less (Nat.le_refl e))]
      exact ih (by omega) (by omega) (fun i low high => spaces i low (by omega)) (fun below => stops (by omega))

/-- The first state of the machine. -/
def startConfig (start range : Nat) : Config := ⟨⟨start, range, range⟩, [], .token⟩

theorem launch_eq {c : Nat} {t : List Nat} (left : mem.drop b = t ++ c :: w ++ rest)
    (last : isSpace c = false) (spaces : IsSpaces w) :
    launch mem b (b + (t ++ c :: w).length) =
      iter (machineStep mem) (mem.length + 2) (startConfig b (b + t.length)) := by
  rw [List.append_assoc] at left
  have here := drop_append left
  have behind := drop_cons here
  have length : (t ++ c :: w).length = t.length + w.length + 1 := by
    rw [List.length_append, List.length_cons]
    omega
  have trim : trimFrom mem (b + (t ++ c :: w).length - 1 - b) (b + (t ++ c :: w).length - 1) = b + t.length := by
    refine trimFrom_eq (by omega) (by omega) (fun i low high => ?_) (fun _ => by rw [unit_eq here]; exact last)
    apply spaces
    rw [← slice_eq behind]
    exact mem_slice.mpr ⟨i, by omega, by omega, rfl⟩
  rw [launch, if_neg (by omega), skipEndWhiteSpace]
  simp only [trim]
  exact parseJSONText_eq ⟨b, b + t.length, b + t.length⟩

/-- A blank text is an error. -/
theorem launch_blank (left : mem.drop b = text ++ rest) (blank : IsSpaces text) :
    ∃ message, launch mem b (b + text.length) = some (.syntaxError message) := by
  cases text with
  | nil => exact ⟨_, if_pos rfl⟩
  | cons c text =>
    have length : (c :: text).length = text.length + 1 := rfl
    have trim : trimFrom mem (b + (c :: text).length - 1 - b) (b + (c :: text).length - 1) = b := by
      refine trimFrom_eq (by omega) (by omega) (fun i low high => ?_) (fun below => by omega)
      apply blank
      rw [← slice_eq left]
      exact mem_slice.mpr ⟨i, by omega, by omega, rfl⟩
    have space := blank c List.mem_cons_self
    have stays : skipStartWhiteSpace mem ⟨b, b, b⟩ = ⟨b, b, b⟩ := by
      have stop : scan mem isSpace b b = b := scan_eq (by decide) (Nat.le_refl b) (by omega) (.inl rfl)
      simp only [skipStartWhiteSpace, stop]
    have illegal : parseToken c = .tokenIllegal := by
      rcases isSpace_iff.mp space with rfl | rfl | rfl | rfl <;> rfl
    refine ⟨"Unexpected Text in JSON", ?_⟩
    rw [launch, if_neg (by omega), skipEndWhiteSpace]
    simp only [trim]
    refine (parseJSONText_eq ⟨b, b, b⟩).trans (iter_inr _ ?_)
    simp only [machineStep, tokenStep, stays, unit_eq left, illegal]

/-! ## Texts of the code -/

/-- A value at the top level, as the code reads it. A string goes up to the last quote of the text; the digits of a
number are cut to eight bits. -/
inductive TopValue : Value → List Nat → Prop where
  | string {q r : List Nat} (chars : Unescapes q r) (legal : ∀ c ∈ q, 0x20 ≤ c) :
      TopValue (.string r) (0x22 :: q ++ [0x22])
  | number {s : List Nat} (token : IsNumber s ∨ OddNumber s) : TopValue (.number (numberOf (s.map (· % 256)))) s
  | nested {v : Value} {s : List Nat} (value : IsValue NestedNumber v s) (string : ∀ r, v ≠ .string r)
      (number : ∀ n, v ≠ .number n) : TopValue v s

/-- A text that the code takes. -/
def CodeText (v : Value) (text : List Nat) : Prop :=
  ∃ w s w', text = w ++ s ++ w' ∧ IsSpaces w ∧ TopValue v s ∧ IsSpaces w'

theorem not_space_of_digit {c : Nat} (digit : isDigit c = true) : isSpace c = false :=
  not_space_of_part (part_of_digit digit)

/-- A value ends with a character that is not a space. -/
theorem isValue_last (value : IsValue NestedNumber v s) : ∃ t c, s = t ++ [c] ∧ isSpace c = false := by
  cases value with
  | null => exact ⟨[0x6E, 0x75, 0x6C], 0x6C, rfl, by decide⟩
  | true => exact ⟨[0x74, 0x72, 0x75], 0x65, rfl, by decide⟩
  | false => exact ⟨[0x66, 0x61, 0x6C, 0x73], 0x65, rfl, by decide⟩
  | number token => exact token_last token.1
  | string chars => exact ⟨_, _, rfl, by decide⟩
  | emptyArray spaces => exact ⟨_, _, rfl, by decide⟩
  | array elements => exact ⟨_, _, rfl, by decide⟩
  | emptyObject spaces => exact ⟨_, _, rfl, by decide⟩
  | object members => exact ⟨_, _, rfl, by decide⟩

theorem topValue_last (value : TopValue v s) : ∃ t c, s = t ++ [c] ∧ isSpace c = false := by
  cases value with
  | string chars legal => exact ⟨_, _, rfl, by decide⟩
  | number token => exact token_last token
  | nested value => exact isValue_last value

/-! ## Every text of the code is read -/

theorem at_start (mem : List Nat) (b range : Nat) : At mem range ⟨b, range, range⟩ b :=
  at_self mem rfl (.inr rfl)

/-- Behind a value the text has to be at its end. -/
theorem leave_step {p : Nat} (stands : At mem range parser p) (behind : range < p) (v : Value) :
    machineStep mem ⟨parser, [], .behind v⟩ = .inr (.value v) := by
  have le := stands.le
  have limit := stands.limit
  simp only [machineStep, behindStep, if_neg (show ¬ parser.current ≤ parser.range by omega)]

section Top

variable (last : isSpace (unit mem range) = false)

include last

theorem string_top {q r : List Nat} (left : mem.drop b = w ++ (0x22 :: q ++ [0x22] ++ rest))
    (spaces : IsSpaces w) (ends : range = b + w.length + q.length + 1) (chars : Unescapes q r)
    (legal : ∀ c ∈ q, 0x20 ≤ c) :
    ∃ parser', machineStep mem (startConfig b range) = .inl ⟨parser', [], .behind (.string r)⟩ ∧
      At mem range parser' (range + 1) := by
  rw [List.append_assoc, List.cons_append] at left
  obtain ⟨parser', position, stands', left', skip, here⟩ := tokenStep_at last (at_start mem b range) left spaces (by decide)
  have same : parser'.end_ = range := by rw [← skip]; rfl
  have content := drop_cons left'
  have token : slice mem (parser'.current + 1) parser'.end_ = q := by
    rw [same, ends, show b + w.length + q.length + 1 = parser'.current + 1 + q.length by omega]
    exact slice_eq content
  have close : unit mem parser'.end_ = 0x22 := by
    rw [same, ends, show b + w.length + q.length + 1 = parser'.current + 1 + q.length by omega]
    exact unit_eq (drop_append content)
  have run := (parseString_top_iff (by omega) (by rw [stands'.limit, same])).mpr ⟨by omega, close,
    by rw [token]; exact legal, by rw [token]; exact chars, rfl⟩
  refine ⟨{ parser' with
    current := parser'.end_ + 1
    end_ := if 0x5C ∈ slice mem (parser'.current + 1) parser'.end_ then parser'.end_ - 1 else parser'.end_ }, ?_, ?_⟩
  · simp only [startConfig, machineStep, tokenStep, skip, here, parseToken, List.isEmpty_nil, Bool.not_true, run]
    rfl
  · rw [same]
    refine at_self mem stands'.limit (.inl ?_)
    simp only
    split <;> omega

theorem number_top (left : mem.drop b = w ++ (s ++ rest)) (spaces : IsSpaces w)
    (ends : range + 1 = b + w.length + s.length) (token : IsNumber s ∨ OddNumber s) :
    ∃ parser', machineStep mem (startConfig b range) =
        .inl ⟨parser', [], .behind (.number (numberOf (s.map (· % 256))))⟩ ∧ At mem range parser' (range + 1) := by
  have head : ∃ c t, s = c :: t ∧ (isDigit c = true ∨ c = 0x2D) := by
    obtain ⟨minus, int, u, rfl, isMinus, isInt⟩ := nestedNumber_int token
    obtain ⟨d, ds, rfl, digit, _⟩ := isInt_digits isInt
    rcases isMinus with rfl | rfl
    · exact ⟨d, ds ++ u, rfl, .inl digit⟩
    · exact ⟨0x2D, d :: ds ++ u, rfl, .inr rfl⟩
  obtain ⟨c, t, rfl, first⟩ := head
  have character : isSpace c = false := by
    rcases first with digit | rfl
    · exact not_space_of_digit digit
    · decide
  obtain ⟨parser', position, stands', left', skip, here⟩ := tokenStep_at last (at_start mem b range) left spaces character
  have same : parser'.end_ = range := by rw [← skip]; rfl
  have length : (c :: t).length = t.length + 1 := rfl
  have token' : slice mem parser'.current (parser'.end_ + 1) = c :: t := by
    rw [same, ends, ← position]
    exact slice_eq left'
  have inside : parser'.end_ < mem.length := by
    have total := congrArg List.length left'
    simp only [List.length_drop, List.append_eq, List.length_append, List.length_cons] at total
    omega
  have run := (parseNumber_top_iff (by omega) inside).mpr ⟨by rw [token']; exact codeNumber_of token, rfl, rfl⟩
  refine ⟨{ parser' with current := parser'.end_ + 1 }, ?_, ?_⟩
  · simp only [startConfig, machineStep, tokenStep, skip, here, parseToken_number first, List.isEmpty_nil, Bool.not_true,
      run, token']
    rfl
  · rw [same]
    exact at_self mem stands'.limit (.inl (by simp only [same]; omega))

/-- The machine reads a value at the top level that goes up to the end of the text. -/
theorem top_run (left : mem.drop b = w ++ (s ++ rest)) (spaces : IsSpaces w)
    (ends : range + 1 = b + w.length + s.length) (small : range < b + 2 ^ 32) (value : TopValue v s) :
    ∃ parser, Steps mem (startConfig b range) ⟨parser, [], .behind v⟩ ∧ At mem range parser (range + 1) := by
  cases value with
  | @string q r chars legal =>
    have length : (0x22 :: q ++ [0x22]).length = q.length + 2 := by simp
    obtain ⟨parser, step, stands⟩ := string_top last left spaces (by omega) chars legal
    exact ⟨parser, Relation.ReflTransGen.single step, stands⟩
  | number token =>
    obtain ⟨parser, step, stands⟩ := number_top last left spaces ends token
    exact ⟨parser, Relation.ReflTransGen.single step, stands⟩
  | nested nested string number =>
    rcases (runs_value last nested).2 with free | ⟨r, same⟩ | ⟨n, same⟩
    · obtain ⟨parser, steps, stands⟩ := free ⟨b, range, range⟩ b [] w rest (at_start mem b range) left spaces
        (by omega) small
      rw [← ends] at stands
      exact ⟨parser, steps, stands⟩
    · exact absurd same (string r)
    · exact absurd same (number n)

end Top

/-- A text of the code is read to its value, whatever is in the memory around it. -/
theorem launch_of_codeText (left : mem.drop b = text ++ rest) (short : text.length < 2 ^ 32)
    (code : CodeText v text) : launch mem b (b + text.length) = some (.value v) := by
  obtain ⟨w, s, w', rfl, spaces, value, spaces'⟩ := code
  obtain ⟨t, c, rfl, last⟩ := topValue_last value
  have whole : w ++ (t ++ [c]) ++ w' = (w ++ t) ++ c :: w' := by simp
  have left' := left
  rw [whole] at left'
  rw [whole, launch_eq left' last spaces']
  rw [List.append_assoc] at left' left
  have stop : isSpace (unit mem (b + (w ++ t).length)) = false := by
    rw [unit_eq (drop_append left')]
    exact last
  rw [List.append_assoc] at left
  have length : (w ++ t).length + 1 = w.length + (t ++ [c]).length := by
    simp only [List.length_append, List.length_singleton]
    omega
  simp only [List.length_append, List.length_singleton] at short
  obtain ⟨parser, steps, stands⟩ := top_run stop left spaces (by omega) (by rw [List.length_append]; omega) value
  exact machine_eq (fun _ _ => by simp only [startConfig]; omega) steps (leave_step stands (by omega) v)

end Json

end ArkRuntime
