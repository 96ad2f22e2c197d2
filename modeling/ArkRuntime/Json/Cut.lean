import ArkRuntime.Json.Prefixes

/-!
# Texts that break off

Where the last character of a text leaves an array or object open, the parser may go on in the memory behind it.
`Cut` lists the texts for which it does. Whatever such a text is, two continuations in memory lead to two values.
-/

namespace ArkRuntime

namespace Json

variable {mem : List Nat} {range b : Nat}

/-- A text, less the spaces at its end, and these spaces. It breaks off right behind a bracket, brace, colon or comma,
behind a literal, array or object in another one, at the first quote of a string, in the middle of a string right
behind an escape, or in a number of which the integer part is `0` or missing. -/
inductive Cut : List Nat → List Nat → Prop where
  | array {fs : List Frame} {t w tail : List Nat} (outer : Open .value fs t) (spaces : IsSpaces w) :
      Cut (t ++ w ++ [0x5B]) tail
  | object {fs : List Frame} {t w tail : List Nat} (outer : Open .value fs t) (spaces : IsSpaces w) :
      Cut (t ++ w ++ [0x7B]) tail
  | colon {ps : List (List Nat × Value)} {fs : List Frame} {t w n k w' tail : List Nat} (outer : Open (.name ps) fs t)
      (spaces : IsSpaces w) (chars : IsChars n k) (colon : IsSpaces w') :
      Cut (t ++ w ++ 0x22 :: n ++ 0x22 :: w' ++ [0x3A]) tail
  | comma {f : Frame} {fs : List Frame} {v : Value} {t w s w' tail : List Nat} (outer : Open .value (f :: fs) t)
      (before : IsSpaces w) (value : IsValue NestedNumber v s) (after : IsSpaces w')
      (number : ∀ n, v = .number n → w' = []) : Cut (t ++ w ++ s ++ w' ++ [0x2C]) tail
  | value {f : Frame} {fs : List Frame} {v : Value} {t w s tail : List Nat} (outer : Open .value (f :: fs) t)
      (before : IsSpaces w) (value : IsValue NestedNumber v s) (string : ∀ r, v ≠ .string r)
      (number : ∀ n, v ≠ .number n) : Cut (t ++ w ++ s) tail
  | quote {e : Expect} {fs : List Frame} {t w tail : List Nat} (outer : Open e fs t) (nested : e = .value → fs ≠ [])
      (spaces : IsSpaces w) (blank : ∀ c ∈ tail, c = 0x20) : Cut (t ++ w ++ [0x22]) tail
  | escape {e : Expect} {fs : List Frame} {x c : Nat} {t w n r tail : List Nat} (outer : Open e fs t)
      (nested : e = .value → fs ≠ []) (spaces : IsSpaces w) (chars : IsChars n r) (escaped : escapeOf x = some c)
      (blank : ∀ c ∈ tail, c = 0x20) : Cut (t ++ w ++ 0x22 :: n ++ [0x5C, x]) tail
  | unicode {e : Expect} {fs : List Frame} {t w n r : List Nat} (outer : Open e fs t) (nested : e = .value → fs ≠ [])
      (spaces : IsSpaces w) (chars : IsChars n r) : Cut (t ++ w ++ 0x22 :: n ++ [0x5C, 0x75]) []
  | zero {f : Frame} {fs : List Frame} {t w m tail : List Nat} (outer : Open .value (f :: fs) t) (spaces : IsSpaces w)
      (sign : IsMinus m) : Cut (t ++ w ++ m ++ [0x30]) tail
  | minus {f : Frame} {fs : List Frame} {t w : List Nat} (outer : Open .value (f :: fs) t) (spaces : IsSpaces w) :
      Cut (t ++ w ++ [0x2D]) []

/-! ## Closing all that is open -/

def Frame.close : Frame → Nat
  | .array _ => 0x5D
  | .object _ _ => 0x7D

def Frame.add (v : Value) : Frame → Value
  | .array vs => .array (vs ++ [v])
  | .object ps k => .object (ps ++ [(k, v)])

/-- The frame behind a value and a comma, with an empty name where one is next. -/
def Frame.next (v : Value) : Frame → Frame
  | .array vs => .array (vs ++ [v])
  | .object ps k => .object (ps ++ [(k, v)]) []

/-- An empty array, with an empty name where one is next. -/
def Frame.filler : Frame → List Nat
  | .array _ => [0x5B, 0x5D]
  | .object _ _ => [0x22, 0x22, 0x3A, 0x5B, 0x5D]

/-- The value of the outermost array or object. -/
def plug : List Frame → Value → Value
  | [], v => v
  | f :: fs, v => plug fs (f.add v)

variable {fs : List Frame} {tail w rest t body s k : List Nat} {f : Frame} {v : Value} {p : Nat} {parser : Parser}

theorem Frame.add_injective {v' : Value} (same : f.add v = f.add v') : v = v' := by
  cases f with
  | array vs =>
    simp only [Frame.add, Value.array.injEq, List.append_cancel_left_eq, List.cons.injEq, and_true] at same
    exact same
  | object ps k =>
    simp only [Frame.add, Value.object.injEq, List.append_cancel_left_eq, List.cons.injEq, Prod.mk.injEq, true_and,
      and_true] at same
    exact same

theorem plug_injective (fs : List Frame) {v' : Value} (same : plug fs v = plug fs v') : v = v' := by
  induction fs generalizing v v' with
  | nil => exact same
  | cons f fs ih => exact Frame.add_injective (ih same)

theorem isSpaces_nil : IsSpaces [] := fun _ no => absurd no List.not_mem_nil

section Finish

variable (last : isSpace (unit mem range) = false)

include last

theorem close_step (f : Frame) (fs : List Frame) (v : Value) (stands : At mem range parser p)
    (left : mem.drop p = f.close :: rest) :
    ∃ parser', machineStep mem ⟨parser, f :: fs, .behind v⟩ = .inl ⟨parser', fs, .behind (f.add v)⟩ ∧
      At mem range parser' (p + 1) := by
  cases f with
  | array vs => exact close_array_step last stands left isSpaces_nil vs fs v
  | object ps k => exact close_object_step last stands left isSpaces_nil ps k fs v

/-- The brackets that are open, one after the other. -/
theorem close_run (fs : List Frame) (v : Value) (stands : At mem range parser p)
    (left : mem.drop p = fs.map Frame.close ++ rest) :
    ∃ parser', Steps mem ⟨parser, fs, .behind v⟩ ⟨parser', [], .behind (plug fs v)⟩ ∧
      At mem range parser' (p + fs.length) := by
  induction fs generalizing parser p v with
  | nil => exact ⟨parser, Relation.ReflTransGen.refl, stands⟩
  | cons f fs ih =>
    obtain ⟨parser1, step, stands1⟩ := close_step last f fs v stands left
    obtain ⟨parser2, steps, stands2⟩ := ih (f.add v) stands1 (drop_cons left)
    refine ⟨parser2, Relation.ReflTransGen.head step steps, ?_⟩
    rw [List.length_cons, show p + (fs.length + 1) = p + 1 + fs.length by omega]
    exact stands2

/-! ## Behind the end of the text -/

/-- An empty array where a value is next. -/
theorem array_fill (steps : Steps mem (startConfig b range) ⟨parser, f :: fs, .token⟩)
    (stands : At mem range parser p) (left : mem.drop p = tail ++ 0x5B :: 0x5D :: rest)
    (spaces : IsSpaces tail) :
    ∃ parser', Steps mem (startConfig b range) ⟨parser', f :: fs, .behind (.array [])⟩ ∧
      At mem range parser' (p + tail.length + 2) := by
  have left' : mem.drop p = tail ++ 0x5B :: ([] ++ 0x5D :: rest) := left
  obtain ⟨parser', step, stands'⟩ := emptyArray_step last (f :: fs) stands left' spaces isSpaces_nil
  exact ⟨parser', steps.tail step, stands'⟩

/-- A name, a colon and an empty array where a name is next. -/
theorem name_fill {ps : List (List Nat × Value)} {n : List Nat}
    (reached : Reached mem range b (.name ps) fs p)
    (left : mem.drop p = w ++ 0x22 :: (n ++ 0x22 :: 0x3A :: 0x5B :: 0x5D :: rest)) (spaces : IsSpaces w)
    (chars : IsChars n k) (passed : Passed range (p + w.length + 1) n) :
    ∃ parser', Steps mem (startConfig b range) ⟨parser', .object ps k :: fs, .behind (.array [])⟩ ∧
      At mem range parser' (p + w.length + n.length + 5) := by
  obtain ⟨parser, stands, named⟩ := reached
  have colon : mem.drop p = w ++ 0x22 :: (n ++ 0x22 :: ([] ++ 0x3A :: ([] ++ 0x5B :: 0x5D :: rest))) := left
  obtain ⟨parser1, parsed, stands1, ahead⟩ := name_run last stands colon spaces chars isSpaces_nil passed
  exact array_fill last (named k parser1 parsed) stands1 ahead isSpaces_nil

/-- A comma behind a value, and one more value. -/
theorem comma_fill (steps : Steps mem (startConfig b range) ⟨parser, f :: fs, .behind v⟩)
    (stands : At mem range parser p) (left : mem.drop p = w ++ 0x2C :: (tail ++ (f.filler ++ rest)))
    (spaces : IsSpaces w) (blank : IsSpaces tail) (behind : range ≤ p + w.length) :
    ∃ parser', Steps mem (startConfig b range) ⟨parser', f.next v :: fs, .behind (.array [])⟩ ∧
      At mem range parser' (p + w.length + 1 + tail.length + f.filler.length) := by
  have next := drop_cons (drop_append left)
  cases f with
  | array vs =>
    obtain ⟨parser1, step, stands1⟩ := comma_step last stands left spaces vs fs v
    exact array_fill last (steps.tail step) stands1 next blank
  | object ps k =>
    obtain ⟨parser1, stands1, named⟩ := comma_object_step last stands left spaces ps k fs v
    have reached : Reached mem range b (.name (ps ++ [(k, v)])) fs (p + w.length + 1) :=
      ⟨parser1, stands1, fun name parser2 parsed => steps.tail (named name parser2 parsed)⟩
    exact name_fill last (n := []) reached next blank .nil (.nil (by omega))

end Finish

/-- Behind the text and these units the machine stands behind a value of an array or object. -/
def Fills (body extra : List Nat) (f : Frame) (fs : List Frame) (v : Value) : Prop :=
  ∀ (mem : List Nat) (b range : Nat) (rest : List Nat), mem.drop b = body ++ (extra ++ rest) →
    range + 1 = b + body.length → range < b + 2 ^ 32 → isSpace (unit mem range) = false →
    (∃ c r, rest = c :: r ∧ isNumberEnd c = true) →
    ∃ parser, Steps mem (startConfig b range) ⟨parser, f :: fs, .behind v⟩ ∧
      At mem range parser (b + body.length + extra.length)

theorem array_fills (outer : Open .value fs t) (spaces : IsSpaces w) (blank : IsSpaces tail) :
    Fills (t ++ w ++ [0x5B]) (tail ++ [0x5B, 0x5D]) (.array []) fs (.array []) := by
  intro mem b range rest left ends small last _
  simp only [List.append_assoc, List.singleton_append, List.cons_append, List.nil_append, List.length_append,
    List.length_cons, List.length_nil] at left ends ⊢
  obtain ⟨parser, steps, stands⟩ := reached_of_open last small outer left (by omega)
    ⟨w, 0x5B, _, rfl, spaces, by decide, by decide⟩
  have left1 := drop_append left
  obtain ⟨parser1, step, stands1⟩ := open_array_step last fs stands left1 spaces
    ⟨tail, 0x5B, _, rfl, blank, by decide, by decide⟩
  obtain ⟨parser2, steps2, stands2⟩ := array_fill last (steps.tail step) stands1 (drop_cons (drop_append left1)) blank
  refine ⟨parser2, steps2, ?_⟩
  rw [show b + (t.length + (w.length + (0 + 1))) + (tail.length + (0 + 1 + 1)) =
    b + t.length + w.length + 1 + tail.length + 2 by omega]
  exact stands2

theorem object_fills (outer : Open .value fs t) (spaces : IsSpaces w) (blank : IsSpaces tail) :
    Fills (t ++ w ++ [0x7B]) (tail ++ [0x22, 0x22, 0x3A, 0x5B, 0x5D]) (.object [] []) fs (.array []) := by
  intro mem b range rest left ends small last _
  simp only [List.append_assoc, List.singleton_append, List.cons_append, List.nil_append, List.length_append,
    List.length_cons, List.length_nil] at left ends ⊢
  obtain ⟨parser, steps, stands⟩ := reached_of_open last small outer left (by omega)
    ⟨w, 0x7B, _, rfl, spaces, by decide, by decide⟩
  have left1 := drop_append left
  obtain ⟨parser1, stands1, named⟩ := open_object_step last fs stands left1 spaces
  have reached : Reached mem range b (.name []) fs (b + t.length + w.length + 1) :=
    ⟨parser1, stands1, fun name parser2 parsed => steps.tail (named name parser2 parsed)⟩
  obtain ⟨parser2, steps2, stands2⟩ := name_fill last (n := []) reached (drop_cons (drop_append left1)) blank .nil
    (.nil (by omega))
  refine ⟨parser2, steps2, ?_⟩
  rw [show b + (t.length + (w.length + (0 + 1))) + (tail.length + (0 + 1 + 1 + 1 + 1 + 1)) =
    b + t.length + w.length + 1 + tail.length + 0 + 5 by omega]
  exact stands2

theorem colon_fills {ps : List (List Nat × Value)} {n w' : List Nat} (outer : Open (.name ps) fs t)
    (spaces : IsSpaces w) (chars : IsChars n k) (colon : IsSpaces w') (blank : IsSpaces tail) :
    Fills (t ++ w ++ 0x22 :: n ++ 0x22 :: w' ++ [0x3A]) (tail ++ [0x5B, 0x5D]) (.object ps k) fs (.array []) := by
  intro mem b range rest left ends small last _
  simp only [List.append_assoc, List.cons_append, List.nil_append, List.length_append,
    List.length_cons, List.length_nil] at left ends ⊢
  obtain ⟨parser, stands, named⟩ := reached_of_open last small outer left (by omega) trivial
  have left1 := drop_append left
  obtain ⟨parser1, parsed, stands1, ahead⟩ := name_run last stands left1 spaces chars colon
    (passed_before chars (by omega))
  obtain ⟨parser2, steps2, stands2⟩ := array_fill last (named k parser1 parsed) stands1 ahead blank
  refine ⟨parser2, steps2, ?_⟩
  rw [show b + (t.length + (w.length + (n.length + (w'.length + (0 + 1) + 1) + 1))) + (tail.length + (0 + 1 + 1)) =
    b + t.length + w.length + n.length + 2 + w'.length + 1 + tail.length + 2 by omega]
  exact stands2

/-- A string or a name that ends behind the text. -/
theorem string_fills {e : Expect} {extra : List Nat} (outer : Open e fs t) (nested : e = .value → fs ≠ [])
    (spaces : IsSpaces w) (chars : IsChars s k) (whole : body ++ extra = t ++ w ++ 0x22 :: s)
    (inside : t.length < body.length)
    (passed : ∀ b range, range + 1 = b + body.length → Passed range (b + t.length + w.length + 1) s) :
    ∃ u f fs' v, Fills body (extra ++ u) f fs' v := by
  have length : body.length + extra.length = t.length + w.length + s.length + 1 := by
    have same := congrArg List.length whole
    simp only [List.length_append, List.length_cons] at same
    omega
  have rewrite : ∀ mem b u rest, List.drop b mem = body ++ (extra ++ u ++ rest) →
      List.drop b mem = t ++ (w ++ 0x22 :: (s ++ (u ++ rest))) := by
    intro mem b u rest left
    rw [left, List.append_assoc extra, ← List.append_assoc, whole]
    simp
  cases e with
  | value =>
    cases fs with
    | nil => exact absurd rfl (nested rfl)
    | cons f fs =>
      refine ⟨[0x22], f, fs, .string k, fun mem b range rest left ends small last _ => ?_⟩
      have left' := rewrite mem b _ rest left
      obtain ⟨parser, steps, stands⟩ := reached_of_open last small outer left' (by omega)
        ⟨w, 0x22, _, rfl, spaces, by decide, by decide⟩
      obtain ⟨parser1, step, stands1⟩ := string_step last stands (drop_append left') spaces chars (passed b range ends)
      refine ⟨parser1, steps.tail step, ?_⟩
      rw [List.length_append, show b + body.length + (extra.length + [0x22].length) =
        b + t.length + w.length + s.length + 2 by rw [List.length_singleton]; omega]
      exact stands1
  | name ps =>
    refine ⟨[0x22, 0x3A, 0x5B, 0x5D], .object ps k, fs, .array [], fun mem b range rest left ends small last _ => ?_⟩
    have left' := rewrite mem b _ rest left
    have reached := reached_of_open last small outer left' (by omega) trivial
    obtain ⟨parser, steps, stands⟩ := name_fill last reached (drop_append left') spaces chars (passed b range ends)
    refine ⟨parser, steps, ?_⟩
    rw [List.length_append, show b + body.length + (extra.length + [0x22, 0x3A, 0x5B, 0x5D].length) =
      b + t.length + w.length + s.length + 5 by simp only [List.length_cons, List.length_nil]; omega]
    exact stands

/-- A value of an array or object: a string ends before the last character of the text, and a number is followed by
what ends it. -/
theorem inner_run (last : isSpace (unit mem range) = false) (stands : At mem range parser p)
    (left : mem.drop p = w ++ (s ++ rest)) (spaces : IsSpaces w) (value : IsValue NestedNumber v s)
    (inside : p + w.length + s.length ≤ range + 1)
    (string : ∀ r, v = .string r → p + w.length + s.length ≤ range)
    (number : ∀ n, v = .number n → Followed range (p + w.length + s.length) rest) (small : range < p + 2 ^ 32) :
    ∃ parser', Steps mem ⟨parser, f :: fs, .token⟩ ⟨parser', f :: fs, .behind v⟩ ∧
      At mem range parser' (p + w.length + s.length) := by
  obtain ⟨runs, kind⟩ := runs_value last value
  rcases kind with free | ⟨r, rfl⟩ | ⟨n, rfl⟩
  · exact free parser p (f :: fs) w rest stands left spaces inside small
  · have before := string r rfl
    cases value with
    | @string q _ chars =>
      have length : (0x22 :: q ++ [0x22]).length = q.length + 2 := by simp
      rw [length] at before ⊢
      rw [List.append_assoc, List.cons_append] at left
      obtain ⟨parser', step, stands'⟩ := string_step last stands left spaces chars (passed_before chars (by omega))
      exact ⟨parser', Relation.ReflTransGen.single step, stands'⟩
  · exact runs parser p (f :: fs) w rest (by simp) stands left spaces (number n rfl) small

theorem comma_fills {w' : List Nat} (outer : Open .value (f :: fs) t) (before : IsSpaces w)
    (value : IsValue NestedNumber v s) (after : IsSpaces w') (number : ∀ n, v = .number n → w' = [])
    (blank : IsSpaces tail) : ∃ u f' v', Fills (t ++ w ++ s ++ w' ++ [0x2C]) (tail ++ u) f' fs v' := by
  -- up to the comma, whatever is open
  have read : ∀ mem b range rest, List.drop b mem = t ++ (w ++ (s ++ (w' ++ 0x2C :: rest))) →
      range + 1 = b + (t.length + (w.length + (s.length + (w'.length + 1)))) → range < b + 2 ^ 32 →
      isSpace (unit mem range) = false → ∃ parser, Steps mem (startConfig b range) ⟨parser, f :: fs, .behind v⟩ ∧
        At mem range parser (b + t.length + w.length + s.length) := by
    intro mem b range rest left ends small last
    obtain ⟨parser, steps, stands⟩ := reached_of_open last small outer left (by omega) (isValue_starts before value)
    obtain ⟨parser1, steps1, stands1⟩ := inner_run last stands (drop_append left) before value (by omega)
      (fun _ _ => by omega)
      (fun n same => ⟨w', 0x2C, rest, rfl, after, by decide, by omega, fun _ => .inr (number n same)⟩) (by omega)
    exact ⟨parser1, steps.trans steps1, stands1⟩
  refine ⟨f.filler, f.next v, .array [], fun mem b range rest left ends small last _ => ?_⟩
  simp only [List.append_assoc, List.singleton_append, List.cons_append, List.nil_append, List.length_append,
    List.length_cons, List.length_nil, Nat.zero_add] at left ends ⊢
  obtain ⟨parser, steps, stands⟩ := read mem b range _ left ends small last
  have comma := drop_append (drop_append (drop_append left))
  obtain ⟨parser1, steps1, stands1⟩ := comma_fill last steps stands comma after blank (by omega)
  refine ⟨parser1, steps1, ?_⟩
  rw [show b + (t.length + (w.length + (s.length + (w'.length + 1)))) + (tail.length + f.filler.length) =
    b + t.length + w.length + s.length + w'.length + 1 + tail.length + f.filler.length by omega]
  exact stands1

theorem value_fills (outer : Open .value (f :: fs) t) (before : IsSpaces w) (value : IsValue NestedNumber v s)
    (string : ∀ r, v ≠ .string r) (number : ∀ n, v ≠ .number n) (blank : IsSpaces tail) :
    Fills (t ++ w ++ s) (tail ++ 0x2C :: f.filler) (f.next v) fs (.array []) := by
  intro mem b range rest left ends small last _
  simp only [List.append_assoc, List.cons_append, List.length_append, List.length_cons] at left ends ⊢
  have nonempty : 0 < s.length := by
    obtain ⟨c, u, rfl, _⟩ := isValue_head value
    exact Nat.succ_pos _
  obtain ⟨parser, steps, stands⟩ := reached_of_open last small outer left (by omega) (isValue_starts before value)
  have left1 := drop_append left
  obtain ⟨parser1, steps1, stands1⟩ := inner_run last stands left1 before value (by omega)
    (fun r same => absurd same (string r)) (fun n same => absurd same (number n)) (by omega)
  obtain ⟨parser2, steps2, stands2⟩ := comma_fill last (steps.trans steps1) stands1
    (drop_append (drop_append left1)) blank isSpaces_nil (by omega)
  refine ⟨parser2, steps2, ?_⟩
  rw [show b + (t.length + (w.length + s.length)) + (tail.length + (f.filler.length + 1)) =
    b + t.length + w.length + s.length + tail.length + 1 + 0 + f.filler.length by omega]
  exact stands2

/-- `0` or `-0`. -/
theorem zero_fills {m extra : List Nat} (outer : Open .value (f :: fs) t) (spaces : IsSpaces w)
    (sign : IsMinus m) (blank : IsSpaces tail) (whole : body ++ extra = t ++ w ++ (m ++ [0x30]) ++ tail)
    (inside : t.length + w.length < body.length) (ends : body.length ≤ t.length + w.length + m.length + 1) :
    Fills body (extra ++ 0x2C :: f.filler) (f.next (.number (numberOf (m ++ [0x30])))) fs (.array []) := by
  intro mem b range rest left ends' small last _
  have length : body.length + extra.length = t.length + w.length + m.length + 1 + tail.length := by
    have same := congrArg List.length whole
    simp only [List.length_append, List.length_singleton] at same
    omega
  have left' : mem.drop b = t ++ (w ++ (m ++ [0x30] ++ (tail ++ 0x2C :: (f.filler ++ rest)))) := by
    rw [left, List.append_assoc extra, ← List.append_assoc, whole]
    simp
  have head : ∃ c u, m ++ [0x30] = c :: u ∧ isSpace c = false ∧ c ≠ 0x5D ∧ (isDigit c = true ∨ c = 0x2D) := by
    rcases sign with rfl | rfl
    · exact ⟨0x30, [], rfl, by decide, by decide, .inl (by decide)⟩
    · exact ⟨0x2D, [0x30], rfl, by decide, by decide, .inr rfl⟩
  obtain ⟨c, u, same, character, other, first⟩ := head
  obtain ⟨parser, steps, stands⟩ := reached_of_open last small outer left' (by omega)
    ⟨w, c, u ++ (tail ++ 0x2C :: (f.filler ++ rest)), by rw [same]; rfl, spaces, character, other⟩
  have left1 := drop_append left'
  rw [same] at left1
  obtain ⟨parser1, position, stands1, left2, skip, here⟩ := tokenStep_at last stands left1 spaces character
  have left3 : mem.drop parser1.current = m ++ [0x30] ++ (tail ++ 0x2C :: (f.filler ++ rest)) := by
    rw [left2, same]
    rfl
  obtain ⟨parser2, run, behind⟩ := parseNumber_zero left3 sign blank (by decide)
    (by rw [stands1.limit, position]; omega)
  have step : machineStep mem ⟨parser, f :: fs, .token⟩ =
      .inl ⟨parser2, f :: fs, .behind (.number (numberOf (m ++ [0x30])))⟩ := by
    have isNested : (!(f :: fs).isEmpty) = true := rfl
    simp only [machineStep, tokenStep, skip, here, parseToken_number first, isNested, run]
    rfl
  have stands2 := stands1.of_behind behind (by omega)
  obtain ⟨parser3, steps3, stands3⟩ := comma_fill last (steps.tail step) stands2
    (drop_append left3) blank isSpaces_nil
    (by simp only [List.length_append, List.length_singleton]; omega)
  refine ⟨parser3, steps3, ?_⟩
  rw [List.length_append, List.length_cons, show b + body.length + (extra.length + (f.filler.length + 1)) =
    parser1.current + (m ++ [0x30]).length + tail.length + 1 + 0 + f.filler.length by
      simp only [List.length_append, List.length_singleton]; omega]
  exact stands3

theorem isChars_append {s' r r' : List Nat} (first : IsChars s r) (second : IsChars s' r') :
    IsChars (s ++ s') (r ++ r') := by
  induction first with
  | nil => exact second
  | plain legal quote backslash _ ih => exact .plain legal quote backslash ih
  | escape escaped _ ih => exact .escape escaped ih
  | unicode hex _ ih => exact .unicode hex ih

theorem isChars_blank (blank : ∀ c ∈ tail, c = 0x20) : IsChars tail tail := by
  induction tail with
  | nil => exact .nil
  | cons c tail ih =>
    obtain rfl := blank c List.mem_cons_self
    exact .plain (by decide) (by decide) (by decide) (ih fun x inside => blank x (List.mem_cons_of_mem _ inside))

/-- Every text that breaks off goes on to a value of an array or object. -/
theorem fills_of_cut (cut : Cut body tail) (blank : IsSpaces tail) :
    ∃ u f fs v, Fills body (tail ++ u) f fs v := by
  cases cut with
  | array outer spaces => exact ⟨_, _, _, _, array_fills outer spaces blank⟩
  | object outer spaces => exact ⟨_, _, _, _, object_fills outer spaces blank⟩
  | colon outer spaces chars colon => exact ⟨_, _, _, _, colon_fills outer spaces chars colon blank⟩
  | comma outer before value after number =>
    obtain ⟨u, f, v, fills⟩ := comma_fills outer before value after number blank
    exact ⟨u, f, _, v, fills⟩
  | value outer before value string number =>
    exact ⟨_, _, _, _, value_fills outer before value string number blank⟩
  | @quote e fs t w tail outer nested spaces blanks =>
    refine string_fills outer nested spaces (isChars_blank blanks) (by simp) (by simp) fun b range ends => ?_
    refine passed_of_skeleton (skeleton_of_isChars (isChars_blank blanks)) fun i low high => ?_
    simp only [List.length_append, List.length_singleton] at ends
    omega
  | @escape e fs x c t w n r tail outer nested spaces chars escaped blanks =>
    have rest := isChars_blank blanks
    refine string_fills outer nested spaces (isChars_append chars (.escape escaped rest)) (by simp)
      (by simp only [List.length_append, List.length_cons, List.length_nil]; omega) fun b range ends => ?_
    refine passed_over (skeleton_of_isChars chars) ?_ (skeleton_of_isChars rest)
    simp only [List.length_append, List.length_cons, List.length_nil] at ends
    omega
  | @unicode e fs t w n r outer nested spaces chars =>
    have hex : hexUnit 0x30 0x30 0x30 0x30 = some 0 := by decide
    have digit : ∀ {s}, Skeleton s → Skeleton (0x30 :: s) := .plain (by decide) (by decide) (by decide)
    have digits : Skeleton [0x30, 0x30, 0x30, 0x30] := digit (digit (digit (digit .nil)))
    have whole : t ++ w ++ 0x22 :: n ++ [0x5C, 0x75] ++ [0x30, 0x30, 0x30, 0x30] =
        t ++ w ++ 0x22 :: (n ++ [0x5C, 0x75, 0x30, 0x30, 0x30, 0x30]) := by simp
    obtain ⟨u, f, fs', v, fills⟩ := string_fills outer nested spaces (isChars_append chars (.unicode hex .nil)) whole
      (by simp only [List.length_append, List.length_cons, List.length_nil]; omega) fun b range ends => by
        refine passed_over (skeleton_of_isChars chars) ?_ digits
        simp only [List.length_append, List.length_cons, List.length_nil] at ends
        omega
    exact ⟨_, f, fs', v, fills⟩
  | @zero f fs t w m tail outer spaces sign =>
    exact ⟨_, _, _, _, zero_fills outer spaces sign blank (by simp) (by simp) (by simp; omega)⟩
  | @minus f fs t w outer spaces =>
    have whole : t ++ w ++ [0x2D] ++ [0x30] = t ++ w ++ ([0x2D] ++ [0x30]) ++ [] := by simp
    exact ⟨0x30 :: 0x2C :: f.filler, _, _, _, zero_fills outer spaces (.inr rfl) blank whole (by simp) (by simp; omega)⟩

/-! ## Two values -/

theorem cut_last (cut : Cut body tail) : ∃ t c, body = t ++ [c] ∧ isSpace c = false := by
  have behind : ∀ {t0 s : List Nat}, (∃ t c, s = t ++ [c] ∧ isSpace c = false) →
      ∃ t c, t0 ++ s = t ++ [c] ∧ isSpace c = false := by
    rintro t0 s ⟨t, c, rfl, character⟩
    exact ⟨t0 ++ t, c, by simp, character⟩
  cases cut with
  | array => exact ⟨_, _, rfl, by decide⟩
  | object => exact ⟨_, _, rfl, by decide⟩
  | colon => exact ⟨_, _, rfl, by decide⟩
  | comma => exact ⟨_, _, rfl, by decide⟩
  | value _ _ value => exact behind (isValue_last value)
  | quote => exact ⟨_, _, rfl, by decide⟩
  | @escape e fs x c t w n r tail outer nested spaces chars escaped =>
    refine behind ⟨[0x5C], x, rfl, ?_⟩
    by_contra space
    rw [Bool.not_eq_false] at space
    rcases isSpace_iff.mp space with rfl | rfl | rfl | rfl <;> cases escaped
  | unicode => exact behind ⟨[0x5C], 0x75, rfl, by decide⟩
  | zero => exact ⟨_, _, rfl, by decide⟩
  | minus => exact ⟨_, _, rfl, by decide⟩

theorem Frame.close_ends (f : Frame) : isNumberEnd f.close = true := by
  cases f <;> rfl

theorem Frame.next_close (f : Frame) (v : Value) : (f.next v).close = f.close := by
  cases f <;> rfl

/-- The machine behind the text and what goes on in memory. -/
theorem run_of_fills {u : List Nat} (fills : Fills body (tail ++ u) f fs v)
    (ending : ∃ t c, body = t ++ [c] ∧ isSpace c = false) (blank : IsSpaces tail)
    (short : body.length < 2 ^ 32) (follows : ∃ c r, rest = c :: r ∧ isNumberEnd c = true) :
    ∃ range parser, isSpace (unit (body ++ tail ++ (u ++ rest)) range) = false ∧
      launch (body ++ tail ++ (u ++ rest)) 0 (body ++ tail).length =
        iter (machineStep (body ++ tail ++ (u ++ rest))) ((body ++ tail ++ (u ++ rest)).length + 2)
          (startConfig 0 range) ∧
      Steps (body ++ tail ++ (u ++ rest)) (startConfig 0 range) ⟨parser, f :: fs, .behind v⟩ ∧
      At (body ++ tail ++ (u ++ rest)) range parser (body ++ tail ++ u).length ∧ range < (body ++ tail ++ u).length := by
  obtain ⟨t, c, rfl, last⟩ := ending
  rw [List.length_append, List.length_singleton] at short
  have left : (t ++ [c] ++ tail ++ (u ++ rest)).drop 0 = t ++ c :: tail ++ (u ++ rest) := by simp
  have run := launch_eq left last blank
  have whole : t ++ c :: tail = t ++ [c] ++ tail := by simp
  rw [Nat.zero_add, Nat.zero_add, whole] at run
  have stop : isSpace (unit (t ++ [c] ++ tail ++ (u ++ rest)) t.length) = false := by
    have here : (t ++ [c] ++ tail ++ (u ++ rest)).drop t.length = c :: (tail ++ (u ++ rest)) := by simp
    rw [unit_eq here]
    exact last
  have left' : (t ++ [c] ++ tail ++ (u ++ rest)).drop 0 = t ++ [c] ++ (tail ++ u ++ rest) := by simp
  obtain ⟨parser, steps, stands⟩ := fills _ 0 t.length rest left' (by simp) (by omega) stop follows
  rw [Nat.zero_add, ← List.length_append, ← List.append_assoc (t ++ [c]) tail u] at stands
  refine ⟨t.length, parser, stop, run, steps, stands, ?_⟩
  simp only [List.length_append, List.length_singleton]
  omega

/-- All that is open is closed. -/
theorem iter_of_close (start : b ≤ range) (last : isSpace (unit mem range) = false)
    (steps : Steps mem (startConfig b range) ⟨parser, fs, .behind v⟩) (stands : At mem range parser p)
    (left : mem.drop p = fs.map Frame.close) (behind : range < p) :
    iter (machineStep mem) (mem.length + 2) (startConfig b range) = some (.value (plug fs v)) := by
  have left' : mem.drop p = fs.map Frame.close ++ [] := by rw [left, List.append_nil]
  obtain ⟨parser', steps', stands'⟩ := close_run last fs v stands left'
  exact machine_eq (fun _ _ => start) (steps.trans steps') (leave_step stands' (by omega) (plug fs v))

/-- What is in memory behind a text that breaks off decides on the value. -/
theorem two_values_of_cut (cut : Cut body tail) (blank : IsSpaces tail) (short : body.length < 2 ^ 32) :
    ∃ after after' v v', v ≠ v' ∧ launch (body ++ tail ++ after) 0 (body ++ tail).length = some (.value v) ∧
      launch (body ++ tail ++ after') 0 (body ++ tail).length = some (.value v') := by
  obtain ⟨u, f, fs, v, fills⟩ := fills_of_cut cut blank
  have ending := cut_last cut
  refine ⟨u ++ (f :: fs).map Frame.close, u ++ 0x2C :: (f.filler ++ (f :: fs).map Frame.close), plug (f :: fs) v,
    plug (f.next v :: fs) (.array []), fun same => ?_, ?_, ?_⟩
  · have equal := plug_injective fs same
    have long : ∀ {α : Type} {xs : List α} {x y : α}, xs ++ [x] ≠ xs ++ [x] ++ [y] := by
      intro α xs x y no
      have length := congrArg List.length no
      simp at length
    cases f with
    | array vs => exact long (Value.array.inj equal)
    | object ps k => exact long (Value.object.inj equal)
  · obtain ⟨range, parser, last, run, steps, stands, behind⟩ := run_of_fills fills ending blank short
      ⟨f.close, fs.map Frame.close, rfl, f.close_ends⟩
    rw [List.map_cons, run]
    refine iter_of_close (Nat.zero_le _) last steps stands ?_ behind
    rw [← List.append_assoc, List.drop_left]
    rfl
  · obtain ⟨range, parser, last, run, steps, stands, behind⟩ := run_of_fills fills ending blank short
      ⟨0x2C, f.filler ++ (f :: fs).map Frame.close, rfl, by decide⟩
    rw [run]
    have ahead : (body ++ tail ++ (u ++ 0x2C :: (f.filler ++ (f :: fs).map Frame.close))).drop
        (body ++ tail ++ u).length = [] ++ 0x2C :: ([] ++ (f.filler ++ (f :: fs).map Frame.close)) := by
      rw [← List.append_assoc, List.drop_left]
      rfl
    obtain ⟨parser', steps', stands'⟩ := comma_fill last steps stands ahead isSpaces_nil isSpaces_nil
      (by simp only [List.length_nil]; omega)
    refine iter_of_close (Nat.zero_le _) last steps' stands' ?_ (by omega)
    have closers := drop_append (drop_append (drop_cons (drop_append ahead)))
    rw [closers, List.map_cons, List.map_cons, f.next_close]

end Json

end ArkRuntime
