import ArkRuntime.Json.Frames

/-!
# Runs of the JSON parser over values

What the machine does with the text of a value inside of an open array or object: it comes to stand behind it, with
the value and the same stack. A parser may have passed spaces already; `At` says where it stands up to spaces.
-/

namespace ArkRuntime

namespace Json

variable {mem : List Nat} {range : Nat}

/-- The parser stands at a position or behind spaces from there on; `end_` is the end of the text or of a token
before it. -/
structure At (mem : List Nat) (range : Nat) (parser : Parser) (p : Nat) : Prop where
  limit : parser.range = range
  ends : parser.end_ < parser.current ∨ parser.end_ = range
  spaces : ∃ w, IsSpaces w ∧ mem.drop p = w ++ mem.drop parser.current ∧ parser.current = p + w.length

variable {parser : Parser} {w s rest r n k w1 w' w0 w2 w3 : List Nat} {p c e : Nat} {v : Value} {vs : List Value}

theorem at_self (mem : List Nat) (same : parser.range = range)
    (ends : parser.end_ < parser.current ∨ parser.end_ = range) : At mem range parser parser.current :=
  ⟨same, ends, [], fun _ no => absurd no List.not_mem_nil, rfl, rfl⟩

theorem At.le (stands : At mem range parser p) : p ≤ parser.current := by
  obtain ⟨w, _, _, position⟩ := stands.spaces
  omega

/-- Spaces before a character that is none. -/
theorem spaces_prefix {rest' : List Nat} (spaces : IsSpaces w) (character : isSpace c = false)
    (same : w ++ rest = w' ++ c :: rest') : ∃ u, w' = w ++ u ∧ rest = u ++ c :: rest' := by
  induction w generalizing w' with
  | nil => exact ⟨w', rfl, same⟩
  | cons x w ih =>
    cases w' with
    | nil =>
      rw [List.cons_append, List.nil_append, List.cons.injEq] at same
      have space := spaces x List.mem_cons_self
      rw [same.1, character] at space
      cases space
    | cons y w' =>
      rw [List.cons_append, List.cons_append, List.cons.injEq] at same
      obtain ⟨rfl, same⟩ := same
      obtain ⟨u, rfl, rest⟩ := ih (fun z inside => spaces z (List.mem_cons_of_mem x inside)) same
      exact ⟨u, rfl, rest⟩

/-- Skipping spaces leaves the parser at its position. -/
theorem At.skip (stands : At mem range parser p) : At mem range (skipStartWhiteSpace mem parser) p := by
  obtain ⟨le, passed, _⟩ := scan_spec mem (p := isSpace) (by decide) parser.end_ parser.current
  obtain ⟨w, spaces, left, position⟩ := stands.spaces
  refine ⟨stands.limit, ?_, w ++ slice mem parser.current (scan mem isSpace parser.end_ parser.current), ?_, ?_, ?_⟩
  · rcases stands.ends with before | same
    · exact .inl (Nat.lt_of_lt_of_le before le)
    · exact .inr same
  · intro c inside
    rcases List.mem_append.mp inside with first | second
    · exact spaces c first
    · obtain ⟨k, low, high, rfl⟩ := mem_slice.mp second
      exact (passed k low high).2
  · have bound : scan mem isSpace parser.end_ parser.current ≤ mem.length ∨
        scan mem isSpace parser.end_ parser.current = parser.current := by
      rcases Nat.eq_or_lt_of_le le with same | less
      · exact .inr same.symm
      · have space := (passed (scan mem isSpace parser.end_ parser.current - 1) (by omega) (by omega)).2
        have inside : scan mem isSpace parser.end_ parser.current - 1 < mem.length := by
          apply lt_length_of_unit
          intro zero
          rw [zero] at space
          exact absurd space (by decide)
        exact .inl (by omega)
    rw [left, List.append_assoc]
    congr 1
    rcases bound with bound | same
    · exact drop_eq_slice le bound
    · change _ = slice mem parser.current (scan mem isSpace parser.end_ parser.current) ++
        mem.drop (scan mem isSpace parser.end_ parser.current)
      rw [same, slice_self]
      rfl
  · change scan mem isSpace parser.end_ parser.current = _
    rw [List.length_append, length_slice]
    omega

/-- The parser one character further. -/
theorem At.next (stands : At mem range parser p) :
    At mem range { parser with current := parser.current + 1 } (parser.current + 1) := by
  refine at_self mem stands.limit ?_
  rcases stands.ends with before | same
  · exact .inl (by simp only; omega)
  · exact .inr same

theorem At.of_behind {parser' : Parser} (stands : At mem range parser p) (behind : Behind parser parser' e)
    (le : parser.current ≤ e) : At mem range parser' e := by
  have ends : parser'.end_ < parser'.current ∨ parser'.end_ = range := by
    rw [behind.position]
    rcases behind.ends with inside | same
    · exact .inl inside
    · rw [same]
      rcases stands.ends with before | equal
      · exact .inl (by omega)
      · exact .inr equal
  have self : At mem range parser' parser'.current := at_self mem (behind.range.trans stands.limit) ends
  rwa [behind.position] at self

section Runs

variable (last : isSpace (unit mem range) = false)

include last

/-- Skipping spaces stops at the next other character. -/
theorem At.skip_to (stands : At mem range parser p) (left : mem.drop p = w ++ c :: rest) (spaces : IsSpaces w)
    (character : isSpace c = false) : (skipStartWhiteSpace mem parser).current = p + w.length := by
  obtain ⟨w', spaces', left', position⟩ := stands.spaces
  obtain ⟨u, rfl, ahead⟩ := spaces_prefix spaces' character (left'.symm.trans left)
  have passed : ∀ x ∈ u, isSpace x = true := fun x inside => spaces x (List.mem_append_right _ inside)
  have run : scan mem isSpace parser.end_ parser.current = parser.current + u.length := by
    refine scan_append (by decide) ahead passed (fun i low high => ?_) (.inr ?_)
    · rcases stands.ends with before | same
      · omega
      · intro equal
        have inside : unit mem i ∈ u := by
          rw [← slice_eq ahead]
          exact mem_slice.mpr ⟨i, low, high, rfl⟩
        have space := passed _ inside
        rw [equal, same, last] at space
        cases space
    · intro x r same
      rw [List.cons.injEq] at same
      rw [← same.1]
      exact character
  change scan mem isSpace parser.end_ parser.current = _
  rw [run, List.length_append]
  omega

/-- The parser at the next character that is not a space. -/
theorem At.skip_exact (stands : At mem range parser p) (left : mem.drop p = w ++ c :: rest)
    (spaces : IsSpaces w) (character : isSpace c = false) :
    (skipStartWhiteSpace mem parser).current = p + w.length ∧
      At mem range (skipStartWhiteSpace mem parser) (p + w.length) ∧
      unit mem (skipStartWhiteSpace mem parser).current = c := by
  have position := stands.skip_to last left spaces character
  have here : mem.drop (p + w.length) = c :: rest := drop_append left
  have skipped := stands.skip
  have self := at_self mem skipped.limit skipped.ends
  rw [position] at self ⊢
  exact ⟨rfl, self, unit_eq here⟩

/-! ## Values -/

/-- Steps of the machine. -/
def Steps (mem : List Nat) : Config → Config → Prop :=
  Relation.ReflTransGen fun c c' => machineStep mem c = .inl c'

/-- A comma or a closing bracket behind a value, up to the end of the text; a comma at the end comes without spaces
before it. -/
def Followed (range e : Nat) (rest : List Nat) : Prop :=
  ∃ w c r, rest = w ++ c :: r ∧ IsSpaces w ∧ isNumberEnd c = true ∧ e + w.length ≤ range ∧
    (c = 0x2C → e + w.length < range ∨ w = [])

/-- The machine reads the text of a value inside of an array or object. -/
def Runs (mem : List Nat) (range : Nat) (v : Value) (s : List Nat) : Prop :=
  ∀ parser p fs w rest, fs ≠ [] → At mem range parser p → mem.drop p = w ++ (s ++ rest) → IsSpaces w →
    Followed range (p + w.length + s.length) rest → range < p + 2 ^ 32 →
    ∃ parser', Steps mem ⟨parser, fs, .token⟩ ⟨parser', fs, .behind v⟩ ∧
      At mem range parser' (p + w.length + s.length)

omit last in
theorem parseLiteral_eq {text : List Nat} (v : Value) (left : mem.drop parser.current = (c :: text) ++ rest)
    (inside : parser.current + (c :: text).length ≤ parser.range + 1)
    (small : parser.range < parser.current + 2 ^ 32) :
    parseLiteral mem (c :: text) v parser =
      .ok (v, { parser with current := parser.current + (c :: text).length }) := by
  have tail : slice mem (parser.current + 1) (parser.current + (c :: text).length) = text := by
    rw [List.length_cons, show parser.current + (text.length + 1) = parser.current + 1 + text.length by omega]
    exact slice_eq (drop_cons left)
  have length : ¬ ((parser.range : Int) - parser.current) % 2 ^ 32 < ((c :: text).length : Int) - 1 := by
    rw [List.length_cons] at inside ⊢
    rw [Int.emod_eq_of_lt (by omega) (by omega)]
    push_cast
    omega
  rw [parseLiteral]
  simp only [length, if_false, tail, List.tail_cons, if_true]

/-- A token that starts with this character. -/
theorem tokenStep_at (stands : At mem range parser p) (left : mem.drop p = w ++ c :: rest)
    (spaces : IsSpaces w) (character : isSpace c = false) :
    ∃ parser', parser'.current = p + w.length ∧ At mem range parser' (p + w.length) ∧
      mem.drop parser'.current = c :: rest ∧ skipStartWhiteSpace mem parser = parser' ∧
      unit mem parser'.current = c := by
  obtain ⟨position, stands', here⟩ := stands.skip_exact last left spaces character
  refine ⟨_, position, stands', ?_, rfl, here⟩
  rw [position]
  exact drop_append left

/-- A literal, at the top level too. -/
theorem literal_step (fs : List Frame)
    (literal : (v = .true ∧ s = trueText) ∨ (v = .false ∧ s = falseText) ∨ (v = .null ∧ s = nullText))
    (stands : At mem range parser p) (left : mem.drop p = w ++ (s ++ rest)) (spaces : IsSpaces w)
    (inside : p + w.length + s.length ≤ range + 1) (small : range < p + 2 ^ 32) :
    ∃ parser', machineStep mem ⟨parser, fs, .token⟩ = .inl ⟨parser', fs, .behind v⟩ ∧
      At mem range parser' (p + w.length + s.length) := by
  have step : ∀ c text, s = c :: text → isSpace c = false →
      (∀ parser : Parser, unit mem (skipStartWhiteSpace mem parser).current = c → tokenStep mem parser fs =
        tokenBehind fs id (parseLiteral mem s v (skipStartWhiteSpace mem parser))) →
      ∃ parser', machineStep mem ⟨parser, fs, .token⟩ = .inl ⟨parser', fs, .behind v⟩ ∧
        At mem range parser' (p + w.length + s.length) := by
    rintro c text rfl character dispatch
    obtain ⟨parser', position, stands', left', skip, here⟩ := tokenStep_at last stands left spaces character
    have run := parseLiteral_eq v left' (by rw [position, stands'.limit]; omega) (by rw [position, stands'.limit]; omega)
    refine ⟨{ parser' with current := parser'.current + (c :: text).length }, ?_, ?_⟩
    · rw [machineStep, dispatch parser (by rw [skip]; exact here), skip, run]
      rfl
    · have self : At mem range { parser' with current := parser'.current + (c :: text).length }
          (parser'.current + (c :: text).length) := by
        refine at_self mem stands'.limit ?_
        rcases stands'.ends with before | same
        · exact .inl (by simp only; omega)
        · exact .inr same
      rw [← position]
      exact self
  rcases literal with ⟨rfl, rfl⟩ | ⟨rfl, rfl⟩ | ⟨rfl, rfl⟩
  · refine step 0x74 [0x72, 0x75, 0x65] rfl (by decide) fun parser here => ?_
    simp only [tokenStep, here, parseToken]
  · refine step 0x66 [0x61, 0x6C, 0x73, 0x65] rfl (by decide) fun parser here => ?_
    simp only [tokenStep, here, parseToken]
  · refine step 0x6E [0x75, 0x6C, 0x6C] rfl (by decide) fun parser here => ?_
    simp only [tokenStep, here, parseToken]

omit last in
theorem parseToken_number (first : isDigit c = true ∨ c = 0x2D) : parseToken c = .number := by
  rcases first with digit | rfl
  · have bounds := isDigit_bounds.mp digit
    unfold parseToken
    split
    all_goals first
      | omega
      | (rw [if_pos digit])
  · rfl

omit last in
theorem nestedNumber_head (number : NestedNumber s) : ∃ c t, s = c :: t ∧ (isDigit c = true ∨ c = 0x2D) := by
  obtain ⟨minus, int, u, rfl, isMinus, isInt⟩ := nestedNumber_int number.1
  rcases isMinus with rfl | rfl
  · rcases isInt with rfl | ⟨d, ds, rfl, low, high, _⟩
    · exact ⟨0x30, u, rfl, .inl (by decide)⟩
    · exact ⟨d, ds ++ u, rfl, .inl (isDigit_bounds.mpr ⟨by omega, high⟩)⟩
  · exact ⟨0x2D, int ++ u, rfl, .inr rfl⟩

/-- A number inside of an array or object. -/
theorem number_run (number : NestedNumber s) : Runs mem range (.number (numberOf s)) s := by
  intro parser p fs w rest nested stands left spaces followed small
  obtain ⟨w', c', r', rfl, spaces', ends, inside, comma⟩ := followed
  obtain ⟨c, t, rfl, first⟩ := nestedNumber_head number
  have character : isSpace c = false := not_space_of_part (number.2 c List.mem_cons_self)
  obtain ⟨parser', position, stands', left', skip, here⟩ := tokenStep_at last stands left spaces character
  obtain ⟨parser'', run, behind⟩ := parseNumber_of_nested left' number spaces' ends
    (by rw [position, stands'.limit]; omega)
    (by rw [position, stands'.limit]; exact fun same => (comma same).imp_left fun less => by omega)
  refine ⟨parser'', Relation.ReflTransGen.single ?_, ?_⟩
  · have isNested : (!fs.isEmpty) = true := by
      cases fs with
      | nil => exact absurd rfl nested
      | cons f fs => rfl
    simp only [machineStep, tokenStep, skip, here, parseToken_number first, isNested, run]
    rfl
  · rw [← position]
    exact stands'.of_behind behind (by omega)

/-- A string inside of an array or object. -/
theorem string_step {f : Frame} {fs : List Frame} (stands : At mem range parser p)
    (left : mem.drop p = w ++ 0x22 :: (s ++ 0x22 :: rest)) (spaces : IsSpaces w) (chars : IsChars s r)
    (passed : Passed range (p + w.length + 1) s) :
    ∃ parser', machineStep mem ⟨parser, f :: fs, .token⟩ = .inl ⟨parser', f :: fs, .behind (.string r)⟩ ∧
      At mem range parser' (p + w.length + s.length + 2) := by
  obtain ⟨parser', position, stands', left', skip, here⟩ := tokenStep_at last stands left spaces (by decide)
  have length : (0x22 :: s ++ [0x22]).length = s.length + 2 := by simp
  obtain ⟨parser'', run, behind⟩ := parseString_of_isChars left' chars (by rw [stands'.limit, position]; exact passed)
  rw [length] at behind
  refine ⟨parser'', ?_, ?_⟩
  · have isNested : (!(f :: fs).isEmpty) = true := rfl
    simp only [machineStep, tokenStep, skip, here, parseToken, isNested, run]
    rfl
  · rw [show p + w.length + s.length + 2 = parser'.current + (s.length + 2) by omega]
    exact stands'.of_behind behind (by omega)

omit last in
/-- The closing quote is before the last character of the text. -/
theorem passed_before {q : Nat} (chars : IsChars s r) (before : q + s.length < range) : Passed range q s :=
  passed_of_skeleton (skeleton_of_isChars chars) fun i low high => by omega

theorem string_run (chars : IsChars s r) : Runs mem range (.string r) (0x22 :: s ++ [0x22]) := by
  intro parser p fs w rest nested stands left spaces followed small
  obtain ⟨w', c', r', rfl, _, _, inside, _⟩ := followed
  have length : (0x22 :: s ++ [0x22]).length = s.length + 2 := by simp
  rw [length] at inside ⊢
  rw [List.append_assoc, List.cons_append] at left
  cases fs with
  | nil => exact absurd rfl nested
  | cons f fs =>
    obtain ⟨parser', step, stands'⟩ := string_step last stands left spaces chars (passed_before chars (by omega))
    exact ⟨parser', Relation.ReflTransGen.single step, stands'⟩

/-- The machine reads the text of a literal, an array or an object, whatever is behind it. -/
def RunsFree (mem : List Nat) (range : Nat) (v : Value) (s : List Nat) : Prop :=
  ∀ parser p fs w rest, At mem range parser p → mem.drop p = w ++ (s ++ rest) → IsSpaces w →
    p + w.length + s.length ≤ range + 1 → range < p + 2 ^ 32 →
    ∃ parser', Steps mem ⟨parser, fs, .token⟩ ⟨parser', fs, .behind v⟩ ∧
      At mem range parser' (p + w.length + s.length)

omit last in
theorem RunsFree.runs (free : RunsFree mem range v s) : Runs mem range v s := by
  intro parser p fs w rest _ stands left spaces followed small
  obtain ⟨w', _, _, _, _, _, inside, _⟩ := followed
  exact free parser p fs w rest stands left spaces (by omega) small

theorem literal_run
    (literal : (v = .true ∧ s = trueText) ∨ (v = .false ∧ s = falseText) ∨ (v = .null ∧ s = nullText)) :
    RunsFree mem range v s := by
  intro parser p fs w rest stands left spaces inside small
  obtain ⟨parser', step, stands'⟩ := literal_step last fs literal stands left spaces inside small
  exact ⟨parser', Relation.ReflTransGen.single step, stands'⟩

/-! ## Arrays -/

theorem comma_step (stands : At mem range parser e) (left : mem.drop e = w ++ 0x2C :: rest)
    (spaces : IsSpaces w) (us : List Value) (fs : List Frame) (v : Value) :
    ∃ parser', machineStep mem ⟨parser, .array us :: fs, .behind v⟩ =
        .inl ⟨parser', .array (us ++ [v]) :: fs, .token⟩ ∧ At mem range parser' (e + w.length + 1) := by
  obtain ⟨parser', position, stands', _, skip, here⟩ := tokenStep_at last stands left spaces (by decide)
  refine ⟨{ parser' with current := parser'.current + 1 }, ?_, ?_⟩
  · simp only [machineStep, behindStep, skip, here, if_true]
  · rw [← position]
    exact stands'.next

theorem close_array_step (stands : At mem range parser e) (left : mem.drop e = w ++ 0x5D :: rest)
    (spaces : IsSpaces w) (us : List Value) (fs : List Frame) (v : Value) :
    ∃ parser', machineStep mem ⟨parser, .array us :: fs, .behind v⟩ =
        .inl ⟨parser', fs, .behind (.array (us ++ [v]))⟩ ∧ At mem range parser' (e + w.length + 1) := by
  obtain ⟨parser', position, stands', _, skip, here⟩ := tokenStep_at last stands left spaces (by decide)
  refine ⟨{ parser' with current := parser'.current + 1 }, ?_, ?_⟩
  · simp [machineStep, behindStep, skip, here]
  · rw [← position]
    exact stands'.next

/-- The machine reads the values of an open array and its closing bracket. -/
def ElementsRun (mem : List Nat) (range : Nat) (vs : List Value) (s : List Nat) : Prop :=
  ∀ parser p us fs rest, At mem range parser p → mem.drop p = s ++ 0x5D :: rest → p + s.length ≤ range →
    range < p + 2 ^ 32 →
    ∃ parser', Steps mem ⟨parser, .array us :: fs, .token⟩ ⟨parser', fs, .behind (.array (us ++ vs))⟩ ∧
      At mem range parser' (p + s.length + 1)

theorem elements_one (before : IsSpaces w) (value : Runs mem range v s) (after : IsSpaces w') :
    ElementsRun mem range [v] (w ++ s ++ w') := by
  intro parser p us fs rest stands left inside small
  simp only [List.length_append] at inside ⊢
  rw [List.append_assoc, List.append_assoc] at left
  obtain ⟨parser', steps, stands'⟩ := value parser p (.array us :: fs) w _ (by simp) stands left before
    ⟨w', 0x5D, rest, rfl, after, by decide, by omega, fun no => absurd no (by decide)⟩ small
  have close := drop_append (drop_append left)
  obtain ⟨parser'', step, stands''⟩ := close_array_step last stands' close after us fs v
  refine ⟨parser'', steps.tail step, ?_⟩
  rw [show p + (w.length + s.length + w'.length) + 1 = p + w.length + s.length + w'.length + 1 by omega]
  exact stands''

theorem elements_more (before : IsSpaces w) (value : Runs mem range v s) (after : IsSpaces w')
    (rest : ElementsRun mem range vs r) : ElementsRun mem range (v :: vs) (w ++ s ++ w' ++ 0x2C :: r) := by
  intro parser p us fs behind stands left inside small
  simp only [List.length_append, List.length_cons] at inside ⊢
  rw [List.append_assoc, List.append_assoc, List.append_assoc] at left
  obtain ⟨parser', steps, stands'⟩ := value parser p (.array us :: fs) w _ (by simp) stands left before
    ⟨w', 0x2C, r ++ 0x5D :: behind, rfl, after, by decide, by omega, fun _ => .inl (by omega)⟩ small
  have comma := drop_append (drop_append left)
  obtain ⟨parser'', step, stands''⟩ := comma_step last stands' comma after us fs v
  have next := drop_cons (drop_append comma)
  obtain ⟨parser3, steps', stands3⟩ := rest parser'' _ (us ++ [v]) fs behind stands'' next (by omega) (by omega)
  rw [List.append_assoc, List.singleton_append] at steps'
  refine ⟨parser3, (steps.tail step).trans steps', ?_⟩
  rw [show p + (w.length + s.length + w'.length + (r.length + 1)) + 1 =
    p + w.length + s.length + w'.length + 1 + r.length + 1 by omega]
  exact stands3

/-- The text starts with a character other than a space and this one. -/
def StartsWithout (x : Nat) (s : List Nat) : Prop :=
  ∃ w c t, s = w ++ c :: t ∧ IsSpaces w ∧ isSpace c = false ∧ c ≠ x

theorem open_array_step (fs : List Frame) (stands : At mem range parser p)
    (left : mem.drop p = w ++ 0x5B :: rest) (spaces : IsSpaces w) (starts : StartsWithout 0x5D rest) :
    ∃ parser', machineStep mem ⟨parser, fs, .token⟩ = .inl ⟨parser', .array [] :: fs, .token⟩ ∧
      At mem range parser' (p + w.length + 1) := by
  obtain ⟨parser', position, stands', left', skip, here⟩ := tokenStep_at last stands left spaces (by decide)
  obtain ⟨w0, c, t, rfl, spaces0, character, other⟩ := starts
  obtain ⟨_, _, here'⟩ := stands'.next.skip_exact last (drop_cons left') spaces0 character
  have other' : unit mem (getNextNonSpaceChar mem parser').current ≠ 0x5D := by
    rw [getNextNonSpaceChar, here']
    exact other
  refine ⟨getNextNonSpaceChar mem parser', ?_, ?_⟩
  · simp only [machineStep, tokenStep, skip, here, parseToken, if_neg other']
  · rw [← position]
    exact stands'.next.skip

theorem array_run (elements : ElementsRun mem range vs s) (starts : ∀ rest, StartsWithout 0x5D (s ++ rest)) :
    RunsFree mem range (.array vs) (0x5B :: s ++ [0x5D]) := by
  intro parser p fs w rest stands left spaces inside small
  have length : (0x5B :: s ++ [0x5D]).length = s.length + 2 := by simp
  rw [length] at inside ⊢
  rw [List.append_assoc, List.cons_append] at left
  obtain ⟨parser', step, stands'⟩ := open_array_step last fs stands left spaces (starts _)
  obtain ⟨parser'', steps, stands''⟩ := elements parser' _ [] fs rest stands' (drop_cons (drop_append left))
    (by omega) (by omega)
  refine ⟨parser'', Relation.ReflTransGen.head step steps, ?_⟩
  rw [show p + w.length + (s.length + 2) = p + w.length + 1 + s.length + 1 by omega]
  exact stands''

theorem emptyArray_step (fs : List Frame) (stands : At mem range parser p)
    (left : mem.drop p = w ++ 0x5B :: (w0 ++ 0x5D :: rest)) (spaces : IsSpaces w) (blank : IsSpaces w0) :
    ∃ parser', machineStep mem ⟨parser, fs, .token⟩ = .inl ⟨parser', fs, .behind (.array [])⟩ ∧
      At mem range parser' (p + w.length + w0.length + 2) := by
  obtain ⟨parser', position, stands', left', skip, here⟩ := tokenStep_at last stands left spaces (by decide)
  obtain ⟨position', stands'', here'⟩ := stands'.next.skip_exact last (drop_cons left') blank (by decide)
  refine ⟨getNextNonSpaceChar mem (getNextNonSpaceChar mem parser'), ?_, ?_⟩
  · have close : unit mem (getNextNonSpaceChar mem parser').current = 0x5D := here'
    simp only [machineStep, tokenStep, skip, here, parseToken, if_pos close]
  · have target : p + w.length + w0.length + 2 =
        (skipStartWhiteSpace mem { parser' with current := parser'.current + 1 }).current + 1 := by
      rw [position']
      omega
    rw [target]
    exact stands''.next.skip

theorem emptyArray_run (blank : IsSpaces w0) : RunsFree mem range (.array []) (0x5B :: w0 ++ [0x5D]) := by
  intro parser p fs w rest stands left spaces inside small
  rw [List.append_assoc, List.cons_append] at left
  obtain ⟨parser', step, stands'⟩ := emptyArray_step last fs stands left spaces blank
  have length : (0x5B :: w0 ++ [0x5D]).length = w0.length + 2 := by simp
  rw [length]
  exact ⟨parser', Relation.ReflTransGen.single step, stands'⟩

/-! ## Objects -/

omit last in
theorem skip_skip (mem : List Nat) (parser : Parser) :
    skipStartWhiteSpace mem (skipStartWhiteSpace mem parser) = skipStartWhiteSpace mem parser := by
  obtain ⟨_, _, stops⟩ := scan_spec mem (p := isSpace) (by decide) parser.end_ parser.current
  have again : scan mem isSpace parser.end_ (scan mem isSpace parser.end_ parser.current) =
      scan mem isSpace parser.end_ parser.current :=
    scan_eq (by decide) (Nat.le_refl _) (fun i low high => by omega) stops
  simp only [skipStartWhiteSpace, again]

omit last in
theorem parseName_quote {parser' : Parser} {name : List Nat}
    (parsed : parseName mem parser = .ok (name, parser')) : unit mem parser.current = 0x22 := by
  rw [parseName] at parsed
  split at parsed
  · cases parsed
  case isFalse quote => exact not_not.mp quote

/-- A name with its colon. -/
theorem name_run (stands : At mem range parser p)
    (left : mem.drop p = w ++ 0x22 :: (n ++ 0x22 :: (w1 ++ 0x3A :: rest))) (spaces : IsSpaces w)
    (chars : IsChars n k) (colon : IsSpaces w1) (passed : Passed range (p + w.length + 1) n) :
    ∃ parser', parseName mem (skipStartWhiteSpace mem parser) = .ok (k, parser') ∧
      At mem range parser' (p + w.length + n.length + 2 + w1.length + 1) ∧
      mem.drop (p + w.length + n.length + 2 + w1.length + 1) = rest := by
  obtain ⟨parser₁, position, stands1, left1, skip, here⟩ := tokenStep_at last stands left spaces (by decide)
  obtain ⟨parser2, parsed, behind⟩ := parseString_of_isChars left1 chars (by rw [stands1.limit, position]; exact passed)
  have length : (0x22 :: n ++ [0x22]).length = n.length + 2 := by simp
  rw [length] at behind
  have stands2 := stands1.of_behind behind (by omega)
  have ahead : mem.drop (parser₁.current + (n.length + 2)) = w1 ++ 0x3A :: rest := by
    have split : mem.drop parser₁.current = (0x22 :: n ++ [0x22]) ++ (w1 ++ 0x3A :: rest) := by
      rw [left1]
      simp
    rw [← length]
    exact drop_append split
  obtain ⟨parser3, position3, stands3, left3, skip3, here3⟩ := tokenStep_at last stands2 ahead colon (by decide)
  refine ⟨{ parser3 with current := parser3.current + 1 }, ?_, ?_⟩
  · rw [skip, parseName, if_neg (by rw [here]; decide), parsed]
    simp only [Bind.bind, Except.bind, skip3]
    rw [if_neg (by rw [here3]; decide)]
    rfl
  · rw [show p + w.length + n.length + 2 + w1.length + 1 = parser3.current + 1 by omega]
    exact ⟨stands3.next, drop_cons left3⟩

/-- The brace of an object, up to its first name. -/
theorem open_object_step (fs : List Frame) (stands : At mem range parser p)
    (left : mem.drop p = w ++ 0x7B :: rest) (spaces : IsSpaces w) :
    ∃ parser₁, At mem range parser₁ (p + w.length + 1) ∧ ∀ name parser2,
      parseName mem (skipStartWhiteSpace mem parser₁) = .ok (name, parser2) →
        machineStep mem ⟨parser, fs, .token⟩ = .inl ⟨parser2, .object [] name :: fs, .token⟩ := by
  obtain ⟨parser', position, stands', left', skip, here⟩ := tokenStep_at last stands left spaces (by decide)
  refine ⟨getNextNonSpaceChar mem parser', ?_, fun name parser2 parsed => ?_⟩
  · rw [← position]
    exact stands'.next.skip
  · have quote := parseName_quote parsed
    rw [getNextNonSpaceChar, skip_skip] at quote
    have other : unit mem (getNextNonSpaceChar mem parser').current ≠ 0x7D := by
      rw [getNextNonSpaceChar, quote]
      decide
    simp only [machineStep, tokenStep, skip, here, parseToken, if_neg other, parsed]

/-- The comma behind a value of an object, up to the next name. -/
theorem comma_object_step (stands : At mem range parser e) (left : mem.drop e = w ++ 0x2C :: rest)
    (spaces : IsSpaces w) (ps : List (List Nat × Value)) (k : List Nat) (fs : List Frame) (v : Value) :
    ∃ parser₁, At mem range parser₁ (e + w.length + 1) ∧ ∀ name parser2,
      parseName mem (skipStartWhiteSpace mem parser₁) = .ok (name, parser2) →
        machineStep mem ⟨parser, .object ps k :: fs, .behind v⟩ =
          .inl ⟨parser2, .object (ps ++ [(k, v)]) name :: fs, .token⟩ := by
  obtain ⟨parser', position, stands', _, skip, here⟩ := tokenStep_at last stands left spaces (by decide)
  refine ⟨{ parser' with current := parser'.current + 1 }, ?_, fun name parser2 parsed => ?_⟩
  · rw [← position]
    exact stands'.next
  · simp only [machineStep, behindStep, skip, here, if_true, getNextNonSpaceChar, parsed]

theorem close_object_step (stands : At mem range parser e) (left : mem.drop e = w ++ 0x7D :: rest)
    (spaces : IsSpaces w) (us : List (List Nat × Value)) (key : List Nat) (fs : List Frame) (v : Value) :
    ∃ parser', machineStep mem ⟨parser, .object us key :: fs, .behind v⟩ =
        .inl ⟨parser', fs, .behind (.object (us ++ [(key, v)]))⟩ ∧ At mem range parser' (e + w.length + 1) := by
  obtain ⟨parser', position, stands', _, skip, here⟩ := tokenStep_at last stands left spaces (by decide)
  refine ⟨{ parser' with current := parser'.current + 1 }, ?_, ?_⟩
  · simp [machineStep, behindStep, skip, here]
  · rw [← position]
    exact stands'.next

/-- The machine reads the names and values of an object and its closing brace, from the first name on. -/
def MembersRun (mem : List Nat) (range : Nat) (ps : List (List Nat × Value)) (s : List Nat) : Prop :=
  ∀ parser p us fs rest, At mem range parser p → mem.drop p = s ++ 0x7D :: rest → p + s.length ≤ range →
    range < p + 2 ^ 32 →
    ∃ name parser₁ parser', parseName mem (skipStartWhiteSpace mem parser) = .ok (name, parser₁) ∧
      Steps mem ⟨parser₁, .object us name :: fs, .token⟩ ⟨parser', fs, .behind (.object (us ++ ps))⟩ ∧
      At mem range parser' (p + s.length + 1)

/-- The first member of the rest of an object, up to what is behind its value. -/
theorem member_run (us : List (List Nat × Value)) (fs : List Frame) (stands : At mem range parser p)
    (left : mem.drop p = w ++ 0x22 :: (n ++ 0x22 :: (w1 ++ 0x3A :: (w2 ++ (s ++ (w3 ++ c :: rest))))))
    (before : IsSpaces w) (name : IsChars n k) (colon : IsSpaces w1) (behind : IsSpaces w2)
    (value : Runs mem range v s) (after : IsSpaces w3) (ends : isNumberEnd c = true)
    (inside : p + w.length + n.length + w1.length + w2.length + s.length + w3.length + 3 ≤ range)
    (comma : c = 0x2C → p + w.length + n.length + w1.length + w2.length + s.length + w3.length + 3 < range)
    (small : range < p + 2 ^ 32) :
    ∃ parser₁ parser2 e, parseName mem (skipStartWhiteSpace mem parser) = .ok (k, parser₁) ∧
      Steps mem ⟨parser₁, .object us k :: fs, .token⟩ ⟨parser2, .object us k :: fs, .behind v⟩ ∧
      At mem range parser2 e ∧ mem.drop e = w3 ++ c :: rest ∧
      e = p + w.length + n.length + w1.length + w2.length + s.length + 3 := by
  obtain ⟨parser₁, parsed, stands1, left1⟩ := name_run last stands left before name colon
    (passed_before name (by omega))
  obtain ⟨parser2, steps, stands2⟩ := value parser₁ _ (.object us k :: fs) w2 _ (by simp) stands1 left1 behind
    ⟨w3, c, rest, rfl, after, ends, by omega, fun same => .inl (by have := comma same; omega)⟩ (by omega)
  exact ⟨parser₁, parser2, _, parsed, steps, stands2, drop_append (drop_append left1), by omega⟩

theorem members_one (before : IsSpaces w) (name : IsChars n k) (colon : IsSpaces w1) (behind : IsSpaces w2)
    (value : Runs mem range v s) (after : IsSpaces w3) :
    MembersRun mem range [(k, v)] (w ++ 0x22 :: n ++ 0x22 :: w1 ++ 0x3A :: w2 ++ s ++ w3) := by
  intro parser p us fs rest stands left inside small
  simp only [List.length_append, List.length_cons] at inside ⊢
  simp only [List.append_assoc, List.cons_append] at left
  obtain ⟨parser₁, parser2, e, parsed, steps, stands2, left2, position⟩ := member_run last us fs stands left before
    name colon behind value after (by decide) (by omega) (fun no => absurd no (by decide)) small
  obtain ⟨parser3, step, stands3⟩ := close_object_step last stands2 left2 after us k fs v
  refine ⟨k, parser₁, parser3, parsed, steps.tail step, ?_⟩
  rw [show p + (w.length + (n.length + 1) + (w1.length + 1) + (w2.length + 1) + s.length + w3.length) + 1 =
    e + w3.length + 1 by omega]
  exact stands3

theorem members_more {ps : List (List Nat × Value)} (before : IsSpaces w) (name : IsChars n k)
    (colon : IsSpaces w1) (behind : IsSpaces w2) (value : Runs mem range v s) (after : IsSpaces w3)
    (rest : MembersRun mem range ps r) :
    MembersRun mem range ((k, v) :: ps) (w ++ 0x22 :: n ++ 0x22 :: w1 ++ 0x3A :: w2 ++ s ++ w3 ++ 0x2C :: r) := by
  intro parser p us fs end_ stands left inside small
  simp only [List.length_append, List.length_cons] at inside ⊢
  simp only [List.append_assoc, List.cons_append] at left
  obtain ⟨parser₁, parser2, e, parsed, steps, stands2, left2, position⟩ := member_run last us fs stands left before
    name colon behind value after (by decide) (by omega) (fun _ => by omega) small
  obtain ⟨parser3, stands3, named⟩ := comma_object_step last stands2 left2 after us k fs v
  obtain ⟨name', parser4, parser5, parsed', steps', stands5⟩ := rest parser3 _ (us ++ [(k, v)]) fs end_ stands3
    (drop_cons (drop_append left2)) (by omega) (by omega)
  rw [List.append_assoc, List.singleton_append] at steps'
  refine ⟨k, parser₁, parser5, parsed, steps.trans (Relation.ReflTransGen.head (named name' parser4 parsed') steps'), ?_⟩
  rw [show p + (w.length + (n.length + 1) + (w1.length + 1) + (w2.length + 1) + s.length + w3.length +
    (r.length + 1)) + 1 = e + w3.length + 1 + r.length + 1 by omega]
  exact stands5

theorem object_run {ps : List (List Nat × Value)} (members : MembersRun mem range ps s) :
    RunsFree mem range (.object ps) (0x7B :: s ++ [0x7D]) := by
  intro parser p fs w rest stands left spaces inside small
  have length : (0x7B :: s ++ [0x7D]).length = s.length + 2 := by simp
  rw [length] at inside ⊢
  rw [List.append_assoc, List.cons_append] at left
  obtain ⟨parser₁, stands1, named⟩ := open_object_step last fs stands left spaces
  obtain ⟨name, parser2, parser3, parsed, steps, stands3⟩ := members parser₁ _ [] fs rest stands1
    (drop_cons (drop_append left)) (by omega) (by omega)
  refine ⟨parser3, Relation.ReflTransGen.head (named name parser2 parsed) steps, ?_⟩
  rw [show p + w.length + (s.length + 2) = p + w.length + 1 + s.length + 1 by omega]
  exact stands3

theorem emptyObject_run (blank : IsSpaces w0) : RunsFree mem range (.object []) (0x7B :: w0 ++ [0x7D]) := by
  intro parser p fs w rest stands left spaces inside small
  have length : (0x7B :: w0 ++ [0x7D]).length = w0.length + 2 := by simp
  rw [length] at inside ⊢
  rw [List.append_assoc, List.cons_append] at left
  obtain ⟨parser', position, stands', left', skip, here⟩ := tokenStep_at last stands left spaces (by decide)
  have first : mem.drop (parser'.current + 1) = w0 ++ 0x7D :: rest := drop_cons left'
  obtain ⟨position', stands'', here'⟩ := stands'.next.skip_exact last first blank (by decide)
  refine ⟨getNextNonSpaceChar mem (getNextNonSpaceChar mem parser'), Relation.ReflTransGen.single ?_, ?_⟩
  · have close : unit mem (getNextNonSpaceChar mem parser').current = 0x7D := here'
    simp only [machineStep, tokenStep, skip, here, parseToken, if_pos close]
  · have target : p + w.length + (w0.length + 2) =
        (skipStartWhiteSpace mem { parser' with current := parser'.current + 1 }).current + 1 := by
      rw [position']
      omega
    rw [target]
    exact stands''.next.skip

/-! ## All values -/

omit last in
theorem isValue_head (value : IsValue NestedNumber v s) :
    ∃ c t, s = c :: t ∧ isSpace c = false ∧ c ≠ 0x5D := by
  cases value with
  | null => exact ⟨_, _, rfl, by decide, by decide⟩
  | true => exact ⟨_, _, rfl, by decide, by decide⟩
  | false => exact ⟨_, _, rfl, by decide, by decide⟩
  | number token =>
    obtain ⟨c, t, rfl, first⟩ := nestedNumber_head token
    have part := token.2 c List.mem_cons_self
    refine ⟨c, t, rfl, not_space_of_part part, ?_⟩
    rintro rfl
    exact absurd part (by decide)
  | string chars => exact ⟨_, _, rfl, by decide, by decide⟩
  | emptyArray spaces => exact ⟨_, _, rfl, by decide, by decide⟩
  | array elements => exact ⟨_, _, rfl, by decide, by decide⟩
  | emptyObject spaces => exact ⟨_, _, rfl, by decide, by decide⟩
  | object members => exact ⟨_, _, rfl, by decide, by decide⟩

omit last in
theorem isValue_starts (before : IsSpaces w) (value : IsValue NestedNumber v s) :
    StartsWithout 0x5D (w ++ (s ++ rest)) := by
  obtain ⟨c, t, rfl, character, other⟩ := isValue_head value
  exact ⟨w, c, t ++ rest, rfl, before, character, other⟩

omit last in
theorem elements_start (elements : IsElements NestedNumber vs s) (rest : List Nat) :
    StartsWithout 0x5D (s ++ rest) := by
  cases elements with
  | one before value after => simpa using isValue_starts before value
  | more before value after others => simpa using isValue_starts before value

omit last in
theorem RunsFree.value (free : RunsFree mem range v s) :
    Runs mem range v s ∧ (RunsFree mem range v s ∨ (∃ r, v = .string r) ∨ ∃ m, v = .number m) := ⟨free.runs, .inl free⟩

mutual

/-- A value that is not a number or a string is read whatever is behind it. -/
theorem runs_value {v : Value} {s : List Nat} : IsValue NestedNumber v s →
    Runs mem range v s ∧ (RunsFree mem range v s ∨ (∃ r, v = .string r) ∨ ∃ m, v = .number m)
  | .null => (literal_run last (.inr (.inr ⟨rfl, rfl⟩))).value
  | .true => (literal_run last (.inl ⟨rfl, rfl⟩)).value
  | .false => (literal_run last (.inr (.inl ⟨rfl, rfl⟩))).value
  | .number token => ⟨number_run last token, .inr (.inr ⟨_, rfl⟩)⟩
  | .string chars => ⟨string_run last chars, .inr (.inl ⟨_, rfl⟩)⟩
  | .emptyArray spaces => (emptyArray_run last spaces).value
  | .array elements => (array_run last (runs_elements elements) (elements_start elements)).value
  | .emptyObject spaces => (emptyObject_run last spaces).value
  | .object members => (object_run last (runs_members members)).value

theorem runs_elements {vs : List Value} {s : List Nat} : IsElements NestedNumber vs s → ElementsRun mem range vs s
  | .one before value after => elements_one last before (runs_value value).1 after
  | .more before value after rest => elements_more last before (runs_value value).1 after (runs_elements rest)

theorem runs_members {ps : List (List Nat × Value)} {s : List Nat} :
    IsMembers NestedNumber ps s → MembersRun mem range ps s
  | .one before name colon behind value after => members_one last before name colon behind (runs_value value).1 after
  | .more before name colon behind value after rest =>
      members_more last before name colon behind (runs_value value).1 after (runs_members rest)

end

end Runs

end Json

end ArkRuntime
