import ArkRuntime.Json.Soundness

/-!
# Acceptance of JSON texts

Which texts are accepted whatever is in the memory around them, and where this is the grammar of ECMA-404. The two
differ for numbers that pass the checks of `ParseNumber` without being numbers, and for strings at the top level with
a quote inside.
-/

namespace ArkRuntime

namespace Json

variable {mem : List Nat} {b : Nat}

/-- `EcmaString::MAX_STRING_LENGTH`. -/
def maxStringLength : Nat := 0x40000000

/-- The text is one JSON value with spaces around it. -/
def IsJson (text : List Nat) : Prop := ∃ v, IsText IsNumber v text

/-! ## Values without odd numbers -/

/-- A number of a value, at any depth. -/
inductive HasNumber (n : JSNumber) : Value → Prop where
  | here : HasNumber n (.number n)
  | array {vs : List Value} {v : Value} (member : v ∈ vs) (inner : HasNumber n v) : HasNumber n (.array vs)
  | object {ps : List (List Nat × Value)} {k : List Nat} {v : Value} (member : (k, v) ∈ ps) (inner : HasNumber n v) :
      HasNumber n (.object ps)

variable {s text : List Nat} {v : Value}

section Tokens

variable {N N' : List Nat → Prop}

mutual

/-- A value of the grammar with other numbers, where the ones it has are in both. -/
theorem IsValue.change {v : Value} {s : List Nat} (same : ∀ t, N t → HasNumber (numberOf t) v → N' t) :
    IsValue N v s → IsValue N' v s
  | .null => .null
  | .true => .true
  | .false => .false
  | .number token => .number (same _ token .here)
  | .string chars => .string chars
  | .emptyArray spaces => .emptyArray spaces
  | .array elements => .array (elements.change fun t v token member inner => same t token (.array member inner))
  | .emptyObject spaces => .emptyObject spaces
  | .object members => .object (members.change fun t k v token member inner => same t token (.object member inner))

theorem IsElements.change {vs : List Value} {s : List Nat}
    (same : ∀ t v, N t → v ∈ vs → HasNumber (numberOf t) v → N' t) : IsElements N vs s → IsElements N' vs s
  | .one before value after =>
      .one before (value.change fun t token inner => same t _ token List.mem_cons_self inner) after
  | .more before value after rest =>
      .more before (value.change fun t token inner => same t _ token List.mem_cons_self inner) after
        (rest.change fun t v token member inner => same t v token (List.mem_cons_of_mem _ member) inner)

theorem IsMembers.change {ps : List (List Nat × Value)} {s : List Nat}
    (same : ∀ t k v, N t → (k, v) ∈ ps → HasNumber (numberOf t) v → N' t) : IsMembers N ps s → IsMembers N' ps s
  | .one before name colon behind value after =>
      .one before name colon behind (value.change fun t token inner => same t _ _ token List.mem_cons_self inner) after
  | .more before name colon behind value after rest =>
      .more before name colon behind (value.change fun t token inner => same t _ _ token List.mem_cons_self inner) after
        (rest.change fun t k v token member inner => same t k v token (List.mem_cons_of_mem _ member) inner)

end

/-- Every value of an array is one of the grammar. -/
theorem elements_member {vs : List Value} (elements : IsElements N vs s) (member : v ∈ vs) :
    ∃ s', IsValue N v s' := by
  induction vs generalizing s with
  | nil => cases member
  | cons v0 vs ih =>
    cases elements with
    | one before value after =>
      rw [List.mem_singleton] at member
      subst member
      exact ⟨_, value⟩
    | more before value after rest =>
      rcases List.mem_cons.mp member with rfl | inside
      · exact ⟨_, value⟩
      · exact ih rest inside

theorem members_member {ps : List (List Nat × Value)} (members : IsMembers N ps s) {k : List Nat}
    (member : (k, v) ∈ ps) : ∃ s', IsValue N v s' := by
  induction ps generalizing s with
  | nil => cases member
  | cons p ps ih =>
    cases members with
    | one before name colon behind value after =>
      rw [List.mem_singleton, Prod.mk.injEq] at member
      obtain ⟨rfl, rfl⟩ := member
      exact ⟨_, value⟩
    | more before name colon behind value after rest =>
      rcases List.mem_cons.mp member with same | inside
      · rw [Prod.mk.injEq] at same
        obtain ⟨rfl, rfl⟩ := same
        exact ⟨_, value⟩
      · exact ih rest inside

/-- The numbers of a value are the ones of the grammar. -/
theorem token_of_hasNumber {n : JSNumber} (inside : HasNumber n v) (value : IsValue N v s) :
    ∃ t, N t ∧ n = numberOf t := by
  induction inside generalizing s with
  | here =>
    cases value with
    | number token => exact ⟨s, token, rfl⟩
  | array member _ ih =>
    cases value with
    | emptyArray spaces => cases member
    | array elements =>
      obtain ⟨s', value'⟩ := elements_member elements member
      exact ih value'
  | object member _ ih =>
    cases value with
    | emptyObject spaces => cases member
    | object members =>
      obtain ⟨s', value'⟩ := members_member members member
      exact ih value'

end Tokens

theorem numberOf_text {m : List Nat} (same : numberOf s = .text m) : s = m := by
  unfold numberOf at same
  split at same
  · split at same
    · cases same
    · exact JSNumber.text.inj same
  · split at same
    · cases same
    · exact JSNumber.text.inj same

theorem isNumber_of_short {minus ds : List Nat} (sign : IsMinus minus) (short : isShortInteger ds = true) :
    IsNumber (minus ++ ds) := by
  obtain ⟨d, t, rfl, low, high, digits, _⟩ := isShortInteger_iff.mp short
  exact ⟨minus, d :: t, [], [], by simp, sign, .inr ⟨d, t, rfl, low, high, digits⟩, .inl rfl, .inl rfl⟩

/-- An odd number is not a short integer. -/
theorem OddNumber.numberOf_eq (odd : OddNumber s) : numberOf s = .text s := by
  unfold numberOf
  split
  case h_1 ds =>
    rw [if_neg]
    intro short
    exact odd.not_isNumber (isNumber_of_short (.inr rfl) short)
  case h_2 =>
    rw [if_neg]
    intro short
    exact odd.not_isNumber (isNumber_of_short (.inl rfl) short)

theorem isDigits_parts (digits : IsDigits s) : ∀ c ∈ s, isNumberPart c = true :=
  fun c inside => part_of_digit (digits c inside)

theorem nestedNumber_of_isNumber (number : IsNumber s) : NestedNumber s := by
  refine ⟨.inl number, ?_⟩
  obtain ⟨minus, int, frac, exp, rfl, sign, isInt, isFrac, isExp⟩ := number
  simp only [List.mem_append]
  rintro c (((inside | inside) | inside) | inside)
  · rcases sign with rfl | rfl
    · cases inside
    · rw [List.mem_singleton.mp inside]
      decide
  · obtain ⟨d, ds, rfl, digit, digits⟩ := isInt_digits isInt
    exact isDigits_parts (isDigits_cons.mpr ⟨digit, digits⟩) c inside
  · rcases isFrac with rfl | ⟨d, ds, rfl, digit, digits⟩
    · cases inside
    · rcases List.mem_cons.mp inside with rfl | inside
      · decide
      · exact isDigits_parts (isDigits_cons.mpr ⟨digit, digits⟩) c inside
  · rcases isExp with rfl | ⟨e, sign', d, ds, rfl, letter, isSign', digit, digits⟩
    · cases inside
    · rcases List.mem_cons.mp inside with rfl | inside
      · rcases letter with rfl | rfl <;> decide
      · rcases List.mem_append.mp inside with inside | inside
        · rcases isSign' with rfl | rfl | rfl
          · cases inside
          · rw [List.mem_singleton.mp inside]
            decide
          · rw [List.mem_singleton.mp inside]
            decide
        · exact isDigits_parts (isDigits_cons.mpr ⟨digit, digits⟩) c inside

/-- A JSON value is one as the code reads it. -/
theorem isValue_nested (value : IsValue IsNumber v s) : IsValue NestedNumber v s :=
  value.change fun _ number _ => nestedNumber_of_isNumber number

/-! ## Texts that are accepted and are not JSON -/

/-- A quote that is not escaped. -/
def BareQuote (q : List Nat) : Prop := ∃ q₁ q₂, q = q₁ ++ 0x22 :: q₂ ∧ Skeleton q₁

theorem BareQuote.not_skeleton {q : List Nat} (bare : BareQuote q) : ¬ Skeleton q := by
  obtain ⟨q₁, q₂, rfl, before⟩ := bare
  induction before with
  | nil =>
    intro skeleton
    cases skeleton with
    | plain legal quote => exact quote rfl
  | plain legal quote backslash _ ih => exact fun skeleton => ih (skeleton.of_cons backslash).2.2
  | pair _ ih => exact fun skeleton => ih skeleton.of_pair

theorem skeleton_or_bareQuote {q r : List Nat} (chars : Unescapes q r) (legal : ∀ c ∈ q, 0x20 ≤ c) :
    Skeleton q ∨ BareQuote q := by
  have prepend : ∀ {u s : List Nat}, (∀ s, Skeleton s → Skeleton (u ++ s)) → Skeleton s ∨ BareQuote s →
      Skeleton (u ++ s) ∨ BareQuote (u ++ s) := by
    rintro u s keeps (skeleton | ⟨q₁, q₂, rfl, before⟩)
    · exact .inl (keeps s skeleton)
    · exact .inr ⟨u ++ q₁, q₂, by simp, keeps q₁ before⟩
  induction chars with
  | nil => exact .inl .nil
  | @plain c s r backslash _ ih =>
    obtain ⟨first, rest⟩ := List.forall_mem_cons.mp legal
    by_cases quote : c = 0x22
    · subst quote
      exact .inr ⟨[], s, rfl, .nil⟩
    · exact prepend (u := [c]) (fun _ skeleton => .plain first quote backslash skeleton) (ih rest)
  | @escape x c s r escaped _ ih =>
    have rest := (List.forall_mem_cons.mp (List.forall_mem_cons.mp legal).2).2
    exact prepend (u := [0x5C, x]) (fun _ skeleton => .pair skeleton) (ih rest)
  | @unicode a b c d u s r hex _ ih =>
    have rest : ∀ x ∈ s, 0x20 ≤ x := fun x inside => legal x (by simp [inside])
    have digits := hexUnit_digits hex
    have plain : ∀ x s, x ∈ [a, b, c, d] → Skeleton s → Skeleton (x :: s) := by
      intro x s inside skeleton
      have bounds := digits x inside
      exact .plain (by omega) (by omega) bounds.2 skeleton
    refine prepend (u := [0x5C, 0x75, a, b, c, d]) (fun s skeleton => ?_) (ih rest)
    exact .pair (plain a _ (by simp) (plain b _ (by simp) (plain c _ (by simp) (plain d s (by simp) skeleton))))

/-- The texts that are accepted and are not JSON: an odd number, also in an array or object, and a string at the top
level with a quote inside. -/
inductive OddText : List Nat → Prop where
  | number {w s w' : List Nat} (before : IsSpaces w) (odd : OddNumber s) (after : IsSpaces w') : OddText (w ++ s ++ w')
  | string {w q r w' : List Nat} (before : IsSpaces w) (chars : Unescapes q r) (legal : ∀ c ∈ q, 0x20 ≤ c)
      (quote : BareQuote q) (after : IsSpaces w') : OddText (w ++ (0x22 :: q ++ [0x22]) ++ w')
  | nested {v : Value} {m w s w' : List Nat} (before : IsSpaces w) (value : IsValue NestedNumber v s)
      (top : ∀ n, v ≠ .number n) (odd : OddNumber m) (inside : HasNumber (.text m) v) (after : IsSpaces w') :
      OddText (w ++ s ++ w')

theorem codeText_of_isText (json : IsText IsNumber v text) : CodeText v text := by
  obtain ⟨w, s, w', rfl, before, value, after⟩ := json
  refine ⟨w, s, w', rfl, before, ?_, after⟩
  have nested := isValue_nested value
  cases value with
  | number token =>
    have same := TopValue.number (.inl token)
    rwa [map_mod_eq fun c inside => part_lt ((nestedNumber_of_isNumber token).2 c inside)] at same
  | string chars => exact .string (unescapes_of_isChars chars) (legal_of_isChars chars)
  | null => exact .nested nested (by simp) (by simp)
  | true => exact .nested nested (by simp) (by simp)
  | false => exact .nested nested (by simp) (by simp)
  | emptyArray spaces => exact .nested nested (by simp) (by simp)
  | array elements => exact .nested nested (by simp) (by simp)
  | emptyObject spaces => exact .nested nested (by simp) (by simp)
  | object members => exact .nested nested (by simp) (by simp)

/-- A text of the code is JSON, or it is one of the odd texts. -/
theorem isJson_or_odd (code : CodeText v text) : IsJson text ∨ OddText text := by
  obtain ⟨w, s, w', rfl, before, value, after⟩ := code
  cases value with
  | @string q r chars legal =>
    rcases skeleton_or_bareQuote chars legal with skeleton | bare
    · exact .inl ⟨_, w, _, w', rfl, before, .string (isChars_of_skeleton chars skeleton), after⟩
    · exact .inr (.string before chars legal bare after)
  | number token =>
    rcases token with number | odd
    · exact .inl ⟨_, w, s, w', rfl, before, .number number, after⟩
    · exact .inr (.number before odd after)
  | nested value string number =>
    by_cases odd : ∃ m, OddNumber m ∧ HasNumber (.text m) v
    · obtain ⟨m, odd, inside⟩ := odd
      exact .inr (.nested before value number odd inside after)
    · refine .inl ⟨v, w, s, w', rfl, before, value.change fun t token inside => ?_, after⟩
      rcases token.1 with isNumber | isOdd
      · exact isNumber
      · rw [isOdd.numberOf_eq] at inside
        exact absurd ⟨t, isOdd, inside⟩ odd

theorem oddText_codeText (odd : OddText text) : ∃ v, CodeText v text := by
  cases odd with
  | number before odd after => exact ⟨_, _, _, _, rfl, before, .number (.inr odd), after⟩
  | string before chars legal quote after => exact ⟨_, _, _, _, rfl, before, .string chars legal, after⟩
  | nested before value top odd inside after =>
    refine ⟨_, _, _, _, rfl, before, .nested value (fun r no => ?_) top, after⟩
    rw [no] at inside
    cases inside

/-- The value between the spaces. -/
theorem split_unique {w w' w1 w1' s1 : List Nat} (same : w ++ s ++ w' = w1 ++ s1 ++ w1') (before : IsSpaces w)
    (after : IsSpaces w') (before1 : IsSpaces w1) (after1 : IsSpaces w1')
    (head : ∃ c t, s = c :: t ∧ isSpace c = false) (head1 : ∃ c t, s1 = c :: t ∧ isSpace c = false)
    (last : ∃ t c, s = t ++ [c] ∧ isSpace c = false) (last1 : ∃ t c, s1 = t ++ [c] ∧ isSpace c = false) :
    s = s1 := by
  have front : w = w1 := by
    obtain ⟨c, t, rfl, character⟩ := head
    obtain ⟨c1, t1, rfl, character1⟩ := head1
    simp only [List.append_assoc, List.cons_append] at same
    obtain ⟨u, longer, rest⟩ := spaces_prefix before character1 same
    cases u with
    | nil => rw [longer, List.append_nil]
    | cons x u =>
      rw [List.cons_append, List.cons.injEq] at rest
      have space := before1 x (by rw [longer]; simp)
      rw [← rest.1, character] at space
      cases space
  subst front
  rw [List.append_assoc, List.append_assoc, List.append_cancel_left_eq] at same
  obtain ⟨t, c, rfl, character⟩ := last
  obtain ⟨t1, c1, rfl, character1⟩ := last1
  rw [List.append_assoc, List.append_assoc] at same
  obtain ⟨rfl, rfl, _⟩ := last_unique same character character1 after after1
  rfl

theorem isValue_first (value : IsValue NestedNumber v s) : ∃ c t, s = c :: t ∧ isSpace c = false := by
  obtain ⟨c, t, same, character, _⟩ := isValue_head value
  exact ⟨c, t, same, character⟩

theorem oddNumber_first (odd : OddNumber s) :
    ∃ c t, s = c :: t ∧ isSpace c = false ∧ (isDigit c = true ∨ c = 0x2D) := by
  obtain ⟨minus, int, u, rfl, sign, isInt⟩ := nestedNumber_int (.inr odd)
  obtain ⟨d, ds, rfl, digit, _⟩ := isInt_digits isInt
  rcases sign with rfl | rfl
  · exact ⟨d, ds ++ u, rfl, not_space_of_digit digit, .inl digit⟩
  · exact ⟨0x2D, d :: ds ++ u, rfl, by decide, .inr rfl⟩

/-- What the first character says about a value. -/
theorem isValue_of_first {t : List Nat} {c : Nat} (value : IsValue IsNumber v s) (start : s = c :: t) :
    (isDigit c = true ∨ c = 0x2D → IsNumber s) ∧ (c = 0x22 → ∃ q r, s = 0x22 :: q ++ [0x22] ∧ IsChars q r) := by
  have other : ∀ x u, s = x :: u → ¬ (isDigit x = true ∨ x = 0x2D) → x ≠ 0x22 →
      (isDigit c = true ∨ c = 0x2D → IsNumber s) ∧ (c = 0x22 → ∃ q r, s = 0x22 :: q ++ [0x22] ∧ IsChars q r) := by
    intro x u same digit quote
    rw [start, List.cons.injEq] at same
    rw [same.1]
    exact ⟨fun no => absurd no digit, fun no => absurd no quote⟩
  cases value with
  | null => exact other _ _ rfl (by decide) (by decide)
  | true => exact other _ _ rfl (by decide) (by decide)
  | false => exact other _ _ rfl (by decide) (by decide)
  | emptyArray spaces => exact other _ _ rfl (by decide) (by decide)
  | array elements => exact other _ _ rfl (by decide) (by decide)
  | emptyObject spaces => exact other _ _ rfl (by decide) (by decide)
  | object members => exact other _ _ rfl (by decide) (by decide)
  | string chars =>
    refine ⟨fun first => ?_, fun _ => ⟨_, _, rfl, chars⟩⟩
    rw [List.cons_append, List.cons.injEq] at start
    rw [← start.1] at first
    exact absurd first (by decide)
  | number token =>
    refine ⟨fun _ => token, fun quote => ?_⟩
    obtain ⟨d, u, same, first⟩ := nestedNumber_head (nestedNumber_of_isNumber token)
    rw [start, List.cons.injEq, quote] at same
    rw [← same.1] at first
    exact absurd first (by decide)

/-- One text has one value. -/
theorem codeText_unique {v' : Value} (short : text.length < 2 ^ 32) (first : CodeText v text)
    (second : CodeText v' text) : v = v' := by
  have left : (text ++ []).drop 0 = text ++ [] := rfl
  have run := launch_of_codeText left short first
  rw [launch_of_codeText left short second] at run
  cases run
  rfl

theorem OddText.not_isJson (odd : OddText text) (short : text.length < 2 ^ 32) : ¬ IsJson text := by
  rintro ⟨v', json⟩
  have code := codeText_of_isText json
  obtain ⟨w1, s1, w1', same, before1, value1, after1⟩ := json
  have nested1 := isValue_nested value1
  cases odd with
  | @number w s w' before odd after =>
    obtain ⟨c, t, start, character, first⟩ := oddNumber_first odd
    have equal := split_unique same before after before1 after1 ⟨c, t, start, character⟩ (isValue_first nested1)
      (oddNumber_last odd) (isValue_last nested1)
    subst equal
    exact odd.not_isNumber ((isValue_of_first value1 start).1 first)
  | @string w q r w' before chars legal quote after =>
    have equal := split_unique same before after before1 after1 ⟨0x22, q ++ [0x22], rfl, by decide⟩
      (isValue_first nested1) ⟨0x22 :: q, 0x22, rfl, by decide⟩ (isValue_last nested1)
    subst equal
    obtain ⟨q', r', equal, chars'⟩ := (isValue_of_first value1 rfl).2 rfl
    rw [List.cons_append, List.cons_append, List.cons.injEq, List.append_cancel_right_eq] at equal
    rw [equal.2] at quote
    exact quote.not_skeleton (skeleton_of_isChars chars')
  | @nested v m w s w' before value top odd inside after =>
    have equal := split_unique same before after before1 after1 (isValue_first value) (isValue_first nested1)
      (isValue_last value) (isValue_last nested1)
    subst equal
    have other : CodeText v (w ++ s ++ w') := by
      refine ⟨w, s, w', rfl, before, .nested value (fun r no => ?_) top, after⟩
      rw [no] at inside
      cases inside
    have unique := codeText_unique short other code
    subst unique
    obtain ⟨t, number, equal⟩ := token_of_hasNumber inside value1
    rw [numberOf_text equal.symm] at number
    exact odd.not_isNumber number

/-! ## Whatever is in memory -/

theorem launch_total {rest : List Nat} (left : mem.drop b = text ++ rest) :
    ∃ r, launch mem b (b + text.length) = some r := by
  rcases blank_or_last text with blank | ⟨t, c, tail, rfl, last, blank⟩
  · obtain ⟨message, run⟩ := launch_blank left blank
    exact ⟨_, run⟩
  · rw [launch_eq left last blank]
    exact machine_ends mem _ fun _ _ => by simp only [startConfig]; omega

/-- Both return the same value, or both throw a `SyntaxError`. -/
def SameOutcome : Option Outcome → Option Outcome → Prop
  | some (.value v), some (.value v') => v = v'
  | some (.syntaxError _), some (.syntaxError _) => True
  | _, _ => False

/-- The outcome is the one of the text: two buffers that agree on it lead to the same. -/
def Local (text : List Nat) : Prop :=
  ∀ mem mem' b b' rest rest', mem.drop b = text ++ rest → mem'.drop b' = text ++ rest' →
    SameOutcome (launch mem b (b + text.length)) (launch mem' b' (b' + text.length))

/-- In every buffer, `Launch` returns normally if the text is JSON and throws a `SyntaxError` otherwise. -/
def AcceptsJson (text : List Nat) : Prop :=
  ∀ mem b rest, mem.drop b = text ++ rest →
    (IsJson text → ∃ v, launch mem b (b + text.length) = some (.value v)) ∧
      (¬ IsJson text → ∃ message, launch mem b (b + text.length) = some (.syntaxError message))

theorem local_of_complete (short : text.length < 2 ^ 32) (complete : ¬ BreaksOff text) : Local text := by
  have both : ∀ mem mem' b b' rest rest' v, List.drop b mem = text ++ rest → List.drop b' mem' = text ++ rest' →
      launch mem b (b + text.length) = some (.value v) → launch mem' b' (b' + text.length) = some (.value v) := by
    intro mem mem' b b' rest rest' v left left' run
    rcases launch_sound left short run with code | cut
    · exact launch_of_codeText left' short code
    · exact absurd cut complete
  intro mem mem' b b' rest rest' left left'
  obtain ⟨r, run⟩ := launch_total left
  obtain ⟨r', run'⟩ := launch_total left'
  cases r with
  | value v =>
    rw [run, both mem mem' b b' rest rest' v left left' run]
    exact rfl
  | syntaxError message =>
    cases r' with
    | value v =>
      rw [both mem' mem b' b rest' rest v left' left run'] at run
      cases run
    | syntaxError message' =>
      rw [run, run']
      trivial

theorem not_local_of_breaksOff (short : text.length < 2 ^ 32) (cut : BreaksOff text) : ¬ Local text := by
  obtain ⟨body, tail, rfl, blank, cut⟩ := cut
  rw [List.length_append] at short
  obtain ⟨after, after', v, v', other, run, run'⟩ := two_values_of_cut cut blank (by omega)
  intro everywhere
  have same := everywhere _ _ 0 0 after after' rfl rfl
  rw [Nat.zero_add, run, run'] at same
  exact other same

theorem local_of_isJson (short : text.length < 2 ^ 32) (json : IsJson text) : Local text := by
  intro mem mem' b b' rest rest' left left'
  obtain ⟨v, json⟩ := json
  have code := codeText_of_isText json
  rw [launch_of_codeText left short code, launch_of_codeText left' short code]
  exact rfl

/-- The outcome depends on the text alone unless the text breaks off. -/
theorem launch_local_iff (text : List Nat) (fits : text.length < maxStringLength) : Local text ↔ ¬ BreaksOff text := by
  have short : text.length < 2 ^ 32 := Nat.lt_of_lt_of_le fits (by decide)
  exact ⟨fun everywhere cut => not_local_of_breaksOff short cut everywhere, local_of_complete short⟩

theorem isJson_closedArray : IsJson [0x5B, 0x74, 0x72, 0x75, 0x65, 0x5D] :=
  ⟨_, [], _, [], rfl, isSpaces_nil, .array (.one isSpaces_nil .true isSpaces_nil), isSpaces_nil⟩

theorem complete_closedArray : ¬ BreaksOff [0x5B, 0x74, 0x72, 0x75, 0x65, 0x5D] := fun cut =>
  not_local_of_breaksOff (by decide) cut (local_of_isJson (by decide) isJson_closedArray)

/-- The texts `[` and `[true]`. -/
theorem launch_local_iff_bracket :
    [0x5B].length < maxStringLength ∧ ¬ Local [0x5B] ∧ Local [0x5B, 0x74, 0x72, 0x75, 0x65, 0x5D] := by
  refine ⟨by decide, fun everywhere => (launch_local_iff [0x5B] (by decide)).mp everywhere ?_, ?_⟩
  · have cut : Cut ([] ++ [] ++ [0x5B]) [] := .array .start isSpaces_nil
    exact ⟨[0x5B], [], rfl, isSpaces_nil, cut⟩
  · exact (launch_local_iff _ (by decide)).mpr complete_closedArray

/-- The text `[true`, with a bracket behind it or with nothing. -/
theorem launch_open_array : ¬ Local [0x5B, 0x74, 0x72, 0x75, 0x65] := by
  intro everywhere
  have same := everywhere [0x5B, 0x74, 0x72, 0x75, 0x65, 0x5D] [0x5B, 0x74, 0x72, 0x75, 0x65] 0 0 [0x5D] [] rfl rfl
  have closed : launch [0x5B, 0x74, 0x72, 0x75, 0x65, 0x5D] 0 5 = some (.value (.array [.true])) := by rfl
  have nothing : launch [0x5B, 0x74, 0x72, 0x75, 0x65] 0 5 = some (.syntaxError "Unexpected Array in JSON") := by rfl
  change SameOutcome (launch _ 0 5) (launch _ 0 5) at same
  rw [closed, nothing] at same
  exact same

/-- `Launch` decides the grammar where the text does not break off and is not one of the odd texts. -/
theorem launch_acceptsJson_iff (text : List Nat) (fits : text.length < maxStringLength) :
    AcceptsJson text ↔ ¬ BreaksOff text ∧ ¬ OddText text := by
  have short : text.length < 2 ^ 32 := Nat.lt_of_lt_of_le fits (by decide)
  have here : (text ++ []).drop 0 = text ++ [] := rfl
  constructor
  · intro accepts
    refine ⟨fun cut => ?_, fun odd => ?_⟩
    · -- a text that breaks off is accepted in two buffers with two values, so it is not JSON
      refine not_local_of_breaksOff short cut fun mem mem' b b' rest rest' left left' => ?_
      by_cases json : IsJson text
      · exact local_of_isJson short json mem mem' b b' rest rest' left left'
      · obtain ⟨message, run⟩ := (accepts mem b rest left).2 json
        obtain ⟨message', run'⟩ := (accepts mem' b' rest' left').2 json
        rw [run, run']
        trivial
    · obtain ⟨v, code⟩ := oddText_codeText odd
      obtain ⟨message, run⟩ := (accepts _ 0 [] here).2 (odd.not_isJson short)
      rw [launch_of_codeText here short code] at run
      cases run
  · rintro ⟨complete, even⟩ mem b rest left
    refine ⟨fun ⟨v, json⟩ => ⟨v, launch_of_codeText left short (codeText_of_isText json)⟩, fun json => ?_⟩
    obtain ⟨r, run⟩ := launch_total left
    cases r with
    | syntaxError message => exact ⟨message, run⟩
    | value v =>
      rcases launch_sound left short run with code | cut
      · rcases isJson_or_odd code with yes | odd
        · exact absurd yes json
        · exact absurd odd even
      · exact absurd cut complete

theorem launch_acceptsJson_iff_bracket :
    [0x5B].length < maxStringLength ∧ ¬ AcceptsJson [0x5B] ∧ AcceptsJson [0x5B, 0x74, 0x72, 0x75, 0x65, 0x5D] := by
  refine ⟨by decide, fun accepts => ((launch_acceptsJson_iff [0x5B] (by decide)).mp accepts).1 ?_, ?_⟩
  · have cut : Cut ([] ++ [] ++ [0x5B]) [] := .array .start isSpaces_nil
    exact ⟨[0x5B], [], rfl, isSpaces_nil, cut⟩
  · exact (launch_acceptsJson_iff _ (by decide)).mpr
      ⟨complete_closedArray, fun odd => odd.not_isJson (by decide) isJson_closedArray⟩

/-- The text `1.e5`. -/
theorem launch_point_exponent : ¬ AcceptsJson [0x31, 0x2E, 0x65, 0x35] := by
  intro accepts
  have isExp : IsExp [0x65, 0x35] := ⟨0x65, [], 0x35, [], rfl, .inl rfl, .inl rfl, by decide, isDigits_nil⟩
  have isInt : IsInt [0x31] := .inr ⟨0x31, [], rfl, by decide, by decide, isDigits_nil⟩
  have odd : OddNumber ([] ++ [0x31] ++ 0x2E :: [0x65, 0x35]) := .point (.inl rfl) isInt isExp
  have text : OddText ([] ++ [0x31, 0x2E, 0x65, 0x35] ++ []) := .number isSpaces_nil odd isSpaces_nil
  obtain ⟨message, run⟩ := (accepts [0x31, 0x2E, 0x65, 0x35] 0 [] rfl).2 (text.not_isJson (by decide))
  have value : launch [0x31, 0x2E, 0x65, 0x35] 0 4 = some (.value (.number (.text [0x31, 0x2E, 0x65, 0x35]))) := by rfl
  change launch _ 0 4 = _ at run
  rw [value] at run
  cases run

end Json

end ArkRuntime
