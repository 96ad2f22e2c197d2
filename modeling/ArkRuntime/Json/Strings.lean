import ArkRuntime.Json.Memory

/-!
# Strings of the JSON parser

`SlowParseString` reads the units between two quotes and takes any of them but a backslash as it is. Inside of an
array or object the scan for the closing quote sees to it that there is no quote among them; at the top level the
last quote of the text is the closing one.
-/

namespace ArkRuntime

namespace Json

variable {mem : List Nat}

/-! ## Escapes -/

/-- What `SlowParseString` makes of the units between the quotes. -/
inductive Unescapes : List Nat → List Nat → Prop where
  | nil : Unescapes [] []
  | plain {c : Nat} {s r : List Nat} (backslash : c ≠ 0x5C) (rest : Unescapes s r) : Unescapes (c :: s) (c :: r)
  | escape {e c : Nat} {s r : List Nat} (escaped : escapeOf e = some c) (rest : Unescapes s r) :
      Unescapes (0x5C :: e :: s) (c :: r)
  | unicode {a b c d u : Nat} {s r : List Nat} (hex : hexUnit a b c d = some u) (rest : Unescapes s r) :
      Unescapes (0x5C :: 0x75 :: a :: b :: c :: d :: s) (u :: r)

variable {s r : List Nat} {range q c n e a d u : Nat} {b : Bool} {parser : Parser}

theorem unescapes_of_isChars (chars : IsChars s r) : Unescapes s r := by
  induction chars with
  | nil => exact .nil
  | plain _ _ backslash _ ih => exact .plain backslash ih
  | escape escaped _ ih => exact .escape escaped ih
  | unicode hex _ ih => exact .unicode hex ih

/-- Further escapes right behind the first one are read along with it. -/
theorem unescapes_of_convertStringUnicode {res behind : List Nat}
    (run : convertStringUnicode s = some (res, behind)) (rest : Unescapes behind r) :
    Unescapes (0x5C :: 0x75 :: s) (res ++ r) := by
  fun_induction convertStringUnicode s generalizing res behind with
  | case1 a b c d left ih =>
    cases hex : hexUnit a b c d with
    | none => simp [hex] at run
    | some u =>
      rw [hex, Option.bind_eq_bind, Option.bind_some] at run
      split at run
      case h_1 more =>
        cases inner : convertStringUnicode more with
        | none => simp [inner] at run
        | some pair =>
          obtain ⟨res', behind'⟩ := pair
          simp only [inner, Option.bind_eq_bind, Option.bind_some, Option.pure_def, Option.some.injEq,
            Prod.mk.injEq] at run
          obtain ⟨rfl, rfl⟩ := run
          exact .unicode hex (ih inner rest)
      case h_2 =>
        simp only [Option.pure_def, Option.some.injEq, Prod.mk.injEq] at run
        obtain ⟨rfl, rfl⟩ := run
        exact .unicode hex rest
  | case2 => simp at run

theorem convertStringUnicode_of_unescapes {b : Nat} (hex : hexUnit a b c d = some u) (rest : Unescapes s r) :
    ∃ res behind r', convertStringUnicode (a :: b :: c :: d :: s) = some (u :: res, behind) ∧ r = res ++ r' ∧
      Unescapes behind r' ∧ behind.length ≤ s.length := by
  induction rest generalizing a b c d u with
  | nil => exact ⟨[], [], [], by simp [convertStringUnicode, hex], rfl, .nil, Nat.le_refl _⟩
  | @plain x s r backslash rest _ =>
    refine ⟨[], x :: s, x :: r, ?_, rfl, .plain backslash rest, Nat.le_refl _⟩
    rw [convertStringUnicode, hex]
    simp only [Option.bind_eq_bind, Option.bind_some]
    split
    case h_1 same => simp_all
    case h_2 => rfl
  | @escape e x s r escaped rest _ =>
    refine ⟨[], 0x5C :: e :: s, x :: r, ?_, rfl, .escape escaped rest, Nat.le_refl _⟩
    rw [convertStringUnicode, hex]
    simp only [Option.bind_eq_bind, Option.bind_some]
    split
    case h_1 same =>
      simp only [List.cons.injEq, true_and] at same
      rw [same.1] at escaped
      exact absurd escaped (by simp [escapeOf])
    case h_2 => rfl
  | @unicode a' b' c' d' u' s r hex' _ ih =>
    obtain ⟨res, behind, r', run, rfl, last, le⟩ := ih hex'
    refine ⟨u' :: res, behind, r', ?_, rfl, last, ?_⟩
    · rw [convertStringUnicode, hex]
      simp only [run, Option.bind_eq_bind, Option.bind_some, Option.pure_def]
    · simp only [List.length_cons]
      omega

theorem parseBackslash_escape (escaped : escapeOf e = some c) (s : List Nat) :
    parseBackslash (e :: s) = some ([c], s) := by
  unfold escapeOf at escaped
  split at escaped
  all_goals first
    | (obtain rfl := Option.some.inj escaped; rfl)
    | cases escaped

/-- A backslash with what is behind it. -/
theorem unescapes_of_parseBackslash {res behind : List Nat} (run : parseBackslash s = some (res, behind))
    (rest : Unescapes behind r) : Unescapes (0x5C :: s) (res ++ r) := by
  unfold parseBackslash at run
  split at run
  case h_10 => exact unescapes_of_convertStringUnicode run rest
  all_goals first
    | (cases run; exact .escape rfl rest)
    | cases run

theorem unescapes_of_slowParseFrom (run : slowParseFrom n s = some r) : Unescapes s r := by
  induction n generalizing s r with
  | zero =>
    cases s with
    | nil =>
      simp only [slowParseFrom, Option.some.injEq] at run
      rw [← run]
      exact .nil
    | cons c s => simp [slowParseFrom] at run
  | succ n ih =>
    cases s with
    | nil =>
      simp only [slowParseFrom, Option.some.injEq] at run
      rw [← run]
      exact .nil
    | cons c s =>
      rw [slowParseFrom] at run
      split at run
      case isTrue same =>
        subst same
        cases step : parseBackslash s with
        | none => simp [step] at run
        | some pair =>
          obtain ⟨res, behind⟩ := pair
          cases next : slowParseFrom n behind with
          | none => simp [step, next] at run
          | some r' =>
            simp only [step, next, Option.bind_eq_bind, Option.bind_some, Option.pure_def, Option.some.injEq] at run
            rw [← run]
            exact unescapes_of_parseBackslash step (ih next)
      case isFalse other =>
        cases next : slowParseFrom n s with
        | none => simp [next] at run
        | some r' =>
          simp only [next, Option.bind_eq_bind, Option.bind_some, Option.pure_def, Option.some.injEq] at run
          rw [← run]
          exact .plain other (ih next)

theorem slowParseFrom_of_unescapes (enough : s.length ≤ n) (chars : Unescapes s r) :
    slowParseFrom n s = some r := by
  induction n generalizing s r with
  | zero =>
    obtain rfl : s = [] := List.length_eq_zero_iff.mp (by omega)
    cases chars
    rfl
  | succ n ih =>
    cases chars with
    | nil => rfl
    | plain backslash rest =>
      rw [List.length_cons] at enough
      rw [slowParseFrom, if_neg backslash, ih (by omega) rest]
      rfl
    | escape escaped rest =>
      simp only [List.length_cons] at enough
      rw [slowParseFrom, if_pos rfl, parseBackslash_escape escaped]
      simp only [Option.bind_eq_bind, Option.bind_some, ih (by omega) rest]
      rfl
    | unicode hex rest =>
      simp only [List.length_cons] at enough
      obtain ⟨res, behind, r', run, rfl, last, le⟩ := convertStringUnicode_of_unescapes hex rest
      have step : parseBackslash (0x75 :: _) = _ := run
      rw [slowParseFrom, if_pos rfl, step]
      simp only [Option.bind_eq_bind, Option.bind_some, ih (by omega) last]
      rfl

theorem slowParseString_iff : slowParseString s = some r ↔ Unescapes s r :=
  ⟨unescapes_of_slowParseFrom, slowParseFrom_of_unescapes (Nat.le_refl _)⟩

/-- Without a backslash the string is the text. -/
theorem unescapes_self (fast : 0x5C ∉ s) : Unescapes s s := by
  induction s with
  | nil => exact .nil
  | cons c s ih =>
    rw [List.mem_cons, not_or] at fast
    exact .plain (Ne.symm fast.1) (ih fast.2)

theorem unescapes_unique {r' : List Nat} (first : Unescapes s r) (second : Unescapes s r') : r = r' := by
  have same := (slowParseString_iff.mpr first).symm.trans (slowParseString_iff.mpr second)
  exact Option.some.inj same

/-! ## The closing quote -/

/-- Units without a quote, an escape being two units whatever it is. -/
inductive Skeleton : List Nat → Prop where
  | nil : Skeleton []
  | plain {c : Nat} {s : List Nat} (legal : 0x20 ≤ c) (quote : c ≠ 0x22) (backslash : c ≠ 0x5C) (rest : Skeleton s) :
      Skeleton (c :: s)
  | pair {c : Nat} {s : List Nat} (rest : Skeleton s) : Skeleton (0x5C :: c :: s)

theorem hexDigit_bounds (hex : hexDigit c = some n) : 0x30 ≤ c ∧ c ≠ 0x5C := by
  rw [hexDigit] at hex
  split at hex
  · omega
  · split at hex
    · omega
    · split at hex
      · omega
      · cases hex

theorem hexUnit_digits {b : Nat} (hex : hexUnit a b c d = some u) :
    ∀ x ∈ [a, b, c, d], 0x30 ≤ x ∧ x ≠ 0x5C := by
  rw [hexUnit] at hex
  simp only [Option.bind_eq_bind, Option.bind_eq_some_iff, Option.pure_def] at hex
  obtain ⟨n1, h1, n2, h2, n3, h3, n4, h4, _⟩ := hex
  simp only [List.mem_cons, List.not_mem_nil, or_false]
  rintro x (rfl | rfl | rfl | rfl)
  · exact hexDigit_bounds h1
  · exact hexDigit_bounds h2
  · exact hexDigit_bounds h3
  · exact hexDigit_bounds h4

theorem hexUnit_first {b : Nat} (hex : hexUnit a b c d = some u) : ∃ n, hexDigit a = some n := by
  cases first : hexDigit a with
  | none =>
    rw [hexUnit, first] at hex
    cases hex
  | some n => exact ⟨n, rfl⟩

theorem Skeleton.of_cons (skeleton : Skeleton (c :: s)) (backslash : c ≠ 0x5C) :
    0x20 ≤ c ∧ c ≠ 0x22 ∧ Skeleton s := by
  cases skeleton with
  | plain legal quote _ rest => exact ⟨legal, quote, rest⟩
  | pair => exact absurd rfl backslash

theorem Skeleton.of_pair (skeleton : Skeleton (0x5C :: c :: s)) : Skeleton s := by
  cases skeleton with
  | plain _ _ backslash _ => exact absurd rfl backslash
  | pair rest => exact rest

theorem isChars_of_skeleton (chars : Unescapes s r) (skeleton : Skeleton s) : IsChars s r := by
  induction chars with
  | nil => exact .nil
  | plain backslash _ ih =>
    obtain ⟨legal, quote, rest⟩ := skeleton.of_cons backslash
    exact .plain legal quote backslash (ih rest)
  | escape escaped _ ih => exact .escape escaped (ih skeleton.of_pair)
  | unicode hex _ ih =>
    have digits := hexUnit_digits hex
    have first := skeleton.of_pair.of_cons (digits _ (by simp)).2
    have second := first.2.2.of_cons (digits _ (by simp)).2
    have third := second.2.2.of_cons (digits _ (by simp)).2
    have fourth := third.2.2.of_cons (digits _ (by simp)).2
    exact .unicode hex (ih fourth.2.2)

theorem skeleton_of_isChars (chars : IsChars s r) : Skeleton s := by
  induction chars with
  | nil => exact .nil
  | plain legal quote backslash _ ih => exact .plain legal quote backslash ih
  | escape _ _ ih => exact .pair ih
  | unicode hex _ ih =>
    have plain : ∀ x, 0x30 ≤ x ∧ x ≠ 0x5C → ∀ {s}, Skeleton s → Skeleton (x :: s) :=
      fun x bounds _ rest => .plain (by omega) (by omega) bounds.2 rest
    have digits := hexUnit_digits hex
    exact .pair (plain _ (digits _ (by simp)) (plain _ (digits _ (by simp)) (plain _ (digits _ (by simp))
      (plain _ (digits _ (by simp)) ih))))

theorem escapeOf_legal {x : Nat} (escaped : escapeOf x = some c) : 0x20 ≤ x := by
  unfold escapeOf at escaped
  split at escaped
  all_goals first
    | decide
    | cases escaped

theorem legal_of_isChars (chars : IsChars s r) : ∀ c ∈ s, 0x20 ≤ c := by
  induction chars with
  | nil => exact fun c no => absurd no List.not_mem_nil
  | plain legal _ _ _ ih => exact List.forall_mem_cons.mpr ⟨legal, ih⟩
  | escape escaped _ ih =>
    exact List.forall_mem_cons.mpr ⟨by decide, List.forall_mem_cons.mpr ⟨escapeOf_legal escaped, ih⟩⟩
  | @unicode a b c d u s r hex _ ih =>
    have digits := hexUnit_digits hex
    have legal : ∀ x ∈ [0x5C, 0x75] ++ [a, b, c, d] ++ s, 0x20 ≤ x := by
      intro x inside
      rcases List.mem_append.mp inside with before | behind
      · rcases List.mem_append.mp before with letters | four
        · rcases List.mem_pair.mp letters with rfl | rfl <;> decide
        · have bound := (digits x four).1
          omega
      · exact ih x behind
    exact legal

/-- What the scan has passed when it finds the closing quote. -/
theorem stringRangeFrom_spec {b' : Bool} (run : stringRangeFrom mem range n q b = some (e, b')) :
    q ≤ e ∧ unit mem e = 0x22 ∧ e ≠ range ∧ Skeleton (slice mem q e) ∧
      b' = (b && !(slice mem q e).contains 0x5C) := by
  induction n generalizing q b with
  | zero => cases run
  | succ n ih =>
    rw [stringRangeFrom] at run
    split at run
    · cases run
    case isFalse other =>
      split at run
      case isTrue quote =>
        simp only [Option.some.injEq, Prod.mk.injEq] at run
        obtain ⟨rfl, rfl⟩ := run
        rw [slice_self]
        exact ⟨Nat.le_refl q, quote, other, .nil, by simp⟩
      case isFalse quote =>
        split at run
        case isTrue backslash =>
          obtain ⟨le, close, away, skeleton, flag⟩ := ih run
          have parts : slice mem q e = 0x5C :: unit mem (q + 1) :: slice mem (q + 2) e := by
            rw [slice_cons (by omega), slice_cons (by omega), backslash]
          rw [parts]
          exact ⟨by omega, close, away, .pair skeleton, by simpa using flag⟩
        case isFalse backslash =>
          split at run
          · cases run
          case isFalse legal =>
            obtain ⟨le, close, away, skeleton, flag⟩ := ih run
            rw [slice_cons (show q < e by omega)]
            refine ⟨by omega, close, away, .plain (by omega) quote backslash skeleton, ?_⟩
            rw [flag, List.contains_cons, beq_false_of_ne (Ne.symm backslash), Bool.false_or]

/-- The scan from a position goes over the units to a closing quote and does not look at the last one of the text. -/
inductive Passed (range : Nat) : Nat → List Nat → Prop where
  | nil {q : Nat} (away : q ≠ range) : Passed range q []
  | plain {q c : Nat} {s : List Nat} (away : q ≠ range) (legal : 0x20 ≤ c) (quote : c ≠ 0x22) (backslash : c ≠ 0x5C)
      (rest : Passed range (q + 1) s) : Passed range q (c :: s)
  | pair {q c : Nat} {s : List Nat} (away : q ≠ range) (rest : Passed range (q + 2) s) :
      Passed range q (0x5C :: c :: s)

theorem passed_of_skeleton (skeleton : Skeleton s) (avoids : ∀ i, q ≤ i → i ≤ q + s.length → i ≠ range) :
    Passed range q s := by
  induction skeleton generalizing q with
  | nil => exact .nil (avoids q (Nat.le_refl q) (Nat.le_refl q))
  | plain legal quote backslash _ ih =>
    rw [List.length_cons] at avoids
    refine .plain (avoids q (Nat.le_refl q) (by omega)) legal quote backslash (ih fun i low high => ?_)
    exact avoids i (by omega) (by omega)
  | pair _ ih =>
    simp only [List.length_cons] at avoids
    exact .pair (avoids q (Nat.le_refl q) (by omega)) (ih fun i low high => avoids i (by omega) (by omega))

/-- The last unit of the text is the second one of an escape. -/
theorem passed_over {x : Nat} {n m : List Nat} (skeleton : Skeleton n) (same : q + n.length + 1 = range)
    (rest : Skeleton m) : Passed range q (n ++ 0x5C :: x :: m) := by
  induction skeleton generalizing q with
  | nil =>
    rw [List.length_nil] at same
    exact .pair (by omega) (passed_of_skeleton rest fun i low high => by omega)
  | plain legal quote backslash _ ih =>
    rw [List.length_cons] at same
    exact .plain (by omega) legal quote backslash (ih (by omega))
  | pair _ ih =>
    simp only [List.length_cons] at same
    exact .pair (by omega) (ih (by omega))

theorem stringRangeFrom_of_passed {rest : List Nat} (passed : Passed range q s)
    (left : mem.drop q = s ++ 0x22 :: rest) (enough : s.length < n) (b : Bool) :
    stringRangeFrom mem range n q b = some (q + s.length, b && !s.contains 0x5C) := by
  induction passed generalizing n b with
  | nil away =>
    obtain ⟨n, rfl⟩ : ∃ k, n = k + 1 := ⟨n - 1, by omega⟩
    rw [stringRangeFrom, if_neg away, if_pos (unit_eq left)]
    simp
  | @plain q c s away legal quote backslash _ ih =>
    rw [List.length_cons] at enough ⊢
    obtain ⟨n, rfl⟩ : ∃ k, n = k + 1 := ⟨n - 1, by omega⟩
    rw [stringRangeFrom, if_neg away, unit_eq left, if_neg quote, if_neg backslash, if_neg (by omega),
      ih (drop_cons left) (by omega) b, List.contains_cons, beq_false_of_ne (Ne.symm backslash), Bool.false_or,
      show q + 1 + s.length = q + (s.length + 1) by omega]
  | @pair q c s away _ ih =>
    simp only [List.length_cons] at enough ⊢
    obtain ⟨n, rfl⟩ : ∃ k, n = k + 1 := ⟨n - 1, by omega⟩
    rw [stringRangeFrom, if_neg away, unit_eq left, if_neg (by decide), if_pos rfl,
      ih (drop_cons (drop_cons left)) (by omega) false, show q + 2 + s.length = q + (s.length + 1 + 1) by omega]
    simp

/-! ## Whole strings -/

/-- The parser behind a token: `end_` is as it was or points into the token. -/
structure Behind (parser parser' : Parser) (p : Nat) : Prop where
  position : parser'.current = p
  range : parser'.range = parser.range
  ends : parser'.end_ < p ∨ parser'.end_ = parser.end_

/-- A string inside of an array or object, where the scan does not come across the end of the text. -/
theorem parseString_nested (scan : readJsonStringRange mem parser.range (parser.current + 1) = some (e, b))
    (le : parser.current + 1 ≤ e) (flag : b = !(slice mem (parser.current + 1) e).contains 0x5C)
    (chars : Unescapes (slice mem (parser.current + 1) e) r) :
    ∃ parser', parseString mem true parser = .ok (r, parser') ∧ Behind parser parser' (e + 1) := by
  rw [parseString, if_pos rfl, scan]
  simp only
  by_cases fast : 0x5C ∈ slice mem (parser.current + 1) e
  · have slow : b = false := by simp [flag, fast]
    rw [slow, if_neg (by decide), slowParseString_iff.mpr chars]
    exact ⟨_, rfl, rfl, rfl, .inl (by simp only; omega)⟩
  · have quick : b = true := by simp [flag, fast]
    rw [quick, if_pos rfl, unescapes_unique chars (unescapes_self fast)]
    exact ⟨_, rfl, rfl, rfl, .inl (by simp only; omega)⟩

theorem parseString_of_isChars {rest : List Nat} (left : mem.drop parser.current = 0x22 :: s ++ 0x22 :: rest)
    (chars : IsChars s r) (passed : Passed parser.range (parser.current + 1) s) :
    ∃ parser', parseString mem true parser = .ok (r, parser') ∧
      Behind parser parser' (parser.current + (0x22 :: s ++ [0x22]).length) := by
  have inside : mem.drop (parser.current + 1) = s ++ 0x22 :: rest := drop_cons left
  have room : s.length < mem.length := by
    have length := congrArg List.length left
    simp only [List.length_drop, List.length_append, List.length_cons] at length
    omega
  have found : readJsonStringRange mem parser.range (parser.current + 1) =
      some (parser.current + 1 + s.length, !s.contains 0x5C) := by
    rw [readJsonStringRange, stringRangeFrom_of_passed passed inside (by omega) true, Bool.true_and]
  have content := slice_eq inside
  obtain ⟨parser', parsed, behind⟩ := parseString_nested found (by omega) (by rw [content])
    (by rw [content]; exact unescapes_of_isChars chars)
  have length : parser.current + (0x22 :: s ++ [0x22]).length = parser.current + 1 + s.length + 1 := by
    simp only [List.length_append, List.length_cons, List.length_nil]
    omega
  rw [← length] at behind
  exact ⟨parser', parsed, behind⟩

/-- What a string inside of an array or object is, if the scan finds its end. -/
theorem isChars_of_parseString {parser' : Parser} (parsed : parseString mem true parser = .ok (r, parser')) :
    ∃ e, readJsonStringRange mem parser.range (parser.current + 1) =
        some (e, !(slice mem (parser.current + 1) e).contains 0x5C) ∧
      parser.current + 1 ≤ e ∧ unit mem e = 0x22 ∧ e ≠ parser.range ∧
      IsChars (slice mem (parser.current + 1) e) r ∧ Behind parser parser' (e + 1) := by
  cases found : readJsonStringRange mem parser.range (parser.current + 1) with
  | none =>
    rw [parseString, if_pos rfl, found] at parsed
    cases parsed
  | some pair =>
    obtain ⟨e, b⟩ := pair
    obtain ⟨le, close, away, skeleton, flag⟩ := stringRangeFrom_spec found
    rw [Bool.true_and] at flag
    have chars : ∃ r', Unescapes (slice mem (parser.current + 1) e) r' := by
      by_cases fast : 0x5C ∈ slice mem (parser.current + 1) e
      · have slow : b = false := by simp [flag, fast]
        rw [parseString, if_pos rfl, found] at parsed
        simp only [slow, Bool.false_eq_true, if_false] at parsed
        split at parsed
        · cases parsed
        case h_2 res run => exact ⟨res, slowParseString_iff.mp run⟩
      · exact ⟨_, unescapes_self fast⟩
    obtain ⟨r', unescapes⟩ := chars
    obtain ⟨parser'', again, behind⟩ := parseString_nested found le flag unescapes
    rw [again] at parsed
    simp only [Except.ok.injEq, Prod.mk.injEq] at parsed
    obtain ⟨rfl, rfl⟩ := parsed
    exact ⟨e, by rw [flag], le, close, away, isChars_of_skeleton unescapes skeleton, behind⟩

/-- A string at the top level goes up to the end of the text. -/
theorem parseString_top_iff {parser' : Parser} (le : parser.current ≤ parser.end_)
    (fits : parser.range = parser.end_) :
    parseString mem false parser = .ok (r, parser') ↔
      parser.current < parser.end_ ∧ unit mem parser.end_ = 0x22 ∧
        (∀ c ∈ slice mem (parser.current + 1) parser.end_, 0x20 ≤ c) ∧
        Unescapes (slice mem (parser.current + 1) parser.end_) r ∧
        parser' = { parser with
          current := parser.end_ + 1
          end_ := if 0x5C ∈ slice mem (parser.current + 1) parser.end_ then parser.end_ - 1 else parser.end_ } := by
  rw [parseString, if_neg (by decide)]
  by_cases quote : unit mem parser.end_ ≠ 0x22 ∨ parser.current = parser.end_
  · rw [if_pos quote]
    constructor
    · intro no
      cases no
    · rintro ⟨less, close, _⟩
      rcases quote with other | same
      · exact absurd close other
      · omega
  · rw [if_neg quote]
    push Not at quote
    by_cases legal : ∀ c ∈ slice mem (parser.current + 1) parser.end_, 0x20 ≤ c
    · have check : isFastParseJsonString mem (parser.current + 1) parser.end_ =
          some (!(slice mem (parser.current + 1) parser.end_).contains 0x5C) :=
        if_pos (List.all_eq_true.mpr fun c inside => decide_eq_true (legal c inside))
      rw [check]
      simp only
      by_cases slow : 0x5C ∈ slice mem (parser.current + 1) parser.end_
      · have flag : (!(slice mem (parser.current + 1) parser.end_).contains 0x5C) = false := by simp [slow]
        rw [flag, if_neg (by decide), if_pos slow]
        constructor
        · intro parsed
          split at parsed
          · cases parsed
          case h_2 res run =>
            cases parsed
            exact ⟨by omega, quote.1, legal, slowParseString_iff.mp run, rfl⟩
        · rintro ⟨_, _, _, chars, rfl⟩
          rw [slowParseString_iff.mpr chars]
      · have flag : (!(slice mem (parser.current + 1) parser.end_).contains 0x5C) = true := by simp [slow]
        rw [flag, if_pos rfl, if_neg slow]
        constructor
        · intro parsed
          cases parsed
          exact ⟨by omega, quote.1, legal, unescapes_self slow, rfl⟩
        · rintro ⟨_, _, _, chars, rfl⟩
          rw [unescapes_unique chars (unescapes_self slow)]
    · have check : isFastParseJsonString mem (parser.current + 1) parser.end_ = none := by
        refine if_neg fun all => legal fun c inside => ?_
        exact of_decide_eq_true (List.all_eq_true.mp all c inside)
      rw [check]
      constructor
      · intro no
        cases no
      · rintro ⟨_, _, all, _⟩
        exact absurd all legal

/-! ## A string that is cut off -/

theorem stringRangeFrom_plain {x : Nat × Bool} (run : stringRangeFrom mem range n q b = some x)
    (quote : unit mem q ≠ 0x22) (backslash : unit mem q ≠ 0x5C) :
    q ≠ range ∧ ∃ n', stringRangeFrom mem range n' (q + 1) b = some x := by
  cases n with
  | zero => cases run
  | succ n =>
    rw [stringRangeFrom, if_neg quote, if_neg backslash] at run
    by_cases same : q = range
    · rw [if_pos same] at run
      cases run
    · rw [if_neg same] at run
      split at run
      · cases run
      · exact ⟨same, n, run⟩

theorem stringRangeFrom_pair {x : Nat × Bool} (run : stringRangeFrom mem range n q b = some x)
    (backslash : unit mem q = 0x5C) :
    q ≠ range ∧ ∃ n' b', stringRangeFrom mem range n' (q + 2) b' = some x := by
  cases n with
  | zero => cases run
  | succ n =>
    rw [stringRangeFrom, backslash, if_neg (show ¬ 0x5C = 0x22 by decide), if_pos rfl] at run
    by_cases same : q = range
    · rw [if_pos same] at run
      cases run
    · rw [if_neg same] at run
      exact ⟨same, n, false, run⟩

/-- An escape of which the second character is the last one of the text. -/
structure CutEscape (mem : List Nat) (q range : Nat) : Prop where
  before : q < range
  chars : ∃ r, IsChars (slice mem q (range - 1)) r
  backslash : unit mem (range - 1) = 0x5C
  escape : (unit mem range = 0x75 ∧ ∃ n, hexDigit (unit mem (range + 1)) = some n) ∨
    ∃ c, escapeOf (unit mem range) = some c

theorem CutEscape.cons (cut : CutEscape mem (q + 1) range) (legal : 0x20 ≤ unit mem q)
    (quote : unit mem q ≠ 0x22) (backslash : unit mem q ≠ 0x5C) : CutEscape mem q range := by
  obtain ⟨before, ⟨r, chars⟩, last, escape⟩ := cut
  refine ⟨by omega, ⟨unit mem q :: r, ?_⟩, last, escape⟩
  rw [slice_cons (by omega)]
  exact .plain legal quote backslash chars

theorem CutEscape.here (same : q + 1 = range) (backslash : unit mem q = 0x5C)
    (escape : (unit mem (q + 1) = 0x75 ∧ ∃ n, hexDigit (unit mem (q + 2)) = some n) ∨
      ∃ c, escapeOf (unit mem (q + 1)) = some c) : CutEscape mem q range := by
  subst same
  refine ⟨by omega, ⟨[], ?_⟩, backslash, escape⟩
  rw [Nat.add_sub_cancel, slice_self]
  exact .nil

/-- The scan comes across the last character only behind a backslash. -/
theorem cutEscape_of_run {b' : Bool} (run : stringRangeFrom mem range n q b = some (e, b'))
    (content : slice mem q e = s) (chars : IsChars s r) (before : q ≤ range) (behind : range < e) :
    CutEscape mem q range := by
  induction chars generalizing q n b with
  | nil =>
    rw [slice_cons (by omega)] at content
    cases content
  | @plain c s r legal quote backslash _ ih =>
    obtain ⟨_, rfl, rest⟩ := slice_eq_cons content
    obtain ⟨other, n', run'⟩ := stringRangeFrom_plain run quote backslash
    exact (ih run' rest (by omega)).cons legal quote backslash
  | @escape x c s r escaped chars ih =>
    obtain ⟨_, here, rest⟩ := slice_eq_cons content
    obtain ⟨_, rfl, rest'⟩ := slice_eq_cons rest
    obtain ⟨other, n', b'', run'⟩ := stringRangeFrom_pair run here
    by_cases same : q + 1 = range
    · exact .here same here (.inr ⟨c, escaped⟩)
    · obtain ⟨before', ⟨r', chars'⟩, last, escape⟩ := ih run' rest' (by omega)
      refine ⟨by omega, ⟨c :: r', ?_⟩, last, escape⟩
      rw [slice_cons (by omega), slice_cons (by omega), here]
      exact .escape escaped chars'
  | @unicode x1 x2 x3 x4 u s r hex chars ih =>
    have digits := hexUnit_digits hex
    obtain ⟨_, here, rest⟩ := slice_eq_cons content
    obtain ⟨_, letter, rest⟩ := slice_eq_cons rest
    obtain ⟨other, n, b, run⟩ := stringRangeFrom_pair run here
    by_cases same : q + 1 = range
    · obtain ⟨_, here1, _⟩ := slice_eq_cons rest
      refine .here same here (.inl ⟨letter, ?_⟩)
      rw [here1]
      exact hexUnit_first hex
    · -- the scan sees every one of the four digits
      obtain ⟨_, here1, rest1⟩ := slice_eq_cons rest
      obtain ⟨_, here2, rest2⟩ := slice_eq_cons rest1
      obtain ⟨_, here3, rest3⟩ := slice_eq_cons rest2
      obtain ⟨_, here4, rest4⟩ := slice_eq_cons rest3
      have plain : ∀ i y, unit mem i = y → y ∈ [x1, x2, x3, x4] → unit mem i ≠ 0x22 ∧ unit mem i ≠ 0x5C := by
        rintro i y rfl inside
        have bounds := digits _ inside
        exact ⟨by omega, bounds.2⟩
      have plain1 := plain _ _ here1 (by simp)
      have plain2 := plain _ _ here2 (by simp)
      have plain3 := plain _ _ here3 (by simp)
      have plain4 := plain _ _ here4 (by simp)
      obtain ⟨other1, n, run⟩ := stringRangeFrom_plain run plain1.1 plain1.2
      obtain ⟨other2, n, run⟩ := stringRangeFrom_plain run plain2.1 plain2.2
      obtain ⟨other3, n, run⟩ := stringRangeFrom_plain run plain3.1 plain3.2
      obtain ⟨other4, n, run⟩ := stringRangeFrom_plain run plain4.1 plain4.2
      have inside : q + 1 + 1 + 1 + 1 + 1 + 1 ≤ range := by
        clear plain plain1 plain2 plain3 plain4 here here1 here2 here3 here4 letter
        omega
      obtain ⟨before', ⟨r', chars'⟩, last, escape⟩ := ih run rest4 inside
      refine ⟨by omega, ⟨u :: r', ?_⟩, last, escape⟩
      rw [slice_cons (by omega), slice_cons (by omega), slice_cons (by omega), slice_cons (by omega),
        slice_cons (by omega), slice_cons (by omega), here, letter, here1, here2, here3, here4]
      exact .unicode hex chars'

end Json

end ArkRuntime
