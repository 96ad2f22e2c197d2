import ArkRuntime.Json.Launch

/-!
# Starts of JSON texts

`Open` is the grammar of what stands before a value or before a name: the open arrays and objects with what they have
so far. The machine comes to the frames of such a start, and a bracket that closes the last one makes a value of it.
-/

namespace ArkRuntime

namespace Json

variable {mem : List Nat} {range b : Nat}

/-- What comes next: a value, or a name in an object that has these properties. -/
inductive Expect where
  | value
  | name (ps : List (List Nat × Value))

/-- A start of a text, with the frames that are open behind it. -/
inductive Open : Expect → List Frame → List Nat → Prop where
  | start : Open .value [] []
  | array {fs : List Frame} {t w : List Nat} (outer : Open .value fs t) (spaces : IsSpaces w) :
      Open .value (.array [] :: fs) (t ++ w ++ [0x5B])
  | element {vs : List Value} {v : Value} {fs : List Frame} {t w s w' : List Nat}
      (outer : Open .value (.array vs :: fs) t) (before : IsSpaces w) (value : IsValue NestedNumber v s)
      (after : IsSpaces w') : Open .value (.array (vs ++ [v]) :: fs) (t ++ w ++ s ++ w' ++ [0x2C])
  | object {fs : List Frame} {t w : List Nat} (outer : Open .value fs t) (spaces : IsSpaces w) :
      Open (.name []) fs (t ++ w ++ [0x7B])
  | member {ps : List (List Nat × Value)} {k : List Nat} {v : Value} {fs : List Frame} {t w s w' : List Nat}
      (outer : Open .value (.object ps k :: fs) t) (before : IsSpaces w) (value : IsValue NestedNumber v s)
      (after : IsSpaces w') : Open (.name (ps ++ [(k, v)])) fs (t ++ w ++ s ++ w' ++ [0x2C])
  | name {ps : List (List Nat × Value)} {k : List Nat} {fs : List Frame} {t w n w' : List Nat}
      (outer : Open (.name ps) fs t) (spaces : IsSpaces w) (chars : IsChars n k) (colon : IsSpaces w') :
      Open .value (.object ps k :: fs) (t ++ w ++ 0x22 :: n ++ 0x22 :: w' ++ [0x3A])

/-! ## Closing -/

/-- Elements may follow. -/
def ElementsBefore (vs : List Value) (r : List Nat) : Prop :=
  ∀ us s, IsElements NestedNumber us s → IsElements NestedNumber (vs ++ us) (r ++ s)

/-- Members may follow. -/
def MembersBefore (ps : List (List Nat × Value)) (r : List Nat) : Prop :=
  ∀ us s, IsMembers NestedNumber us s → IsMembers NestedNumber (ps ++ us) (r ++ s)

/-- The last open bracket with what is behind it. -/
def Opened : Expect → List Frame → List Nat → Prop
  | .value, [], t => t = []
  | .value, .array vs :: fs, t =>
      ∃ t₀ w r, t = t₀ ++ w ++ 0x5B :: r ∧ Open .value fs t₀ ∧ IsSpaces w ∧ ElementsBefore vs r
  | .value, .object ps k :: fs, t =>
      ∃ t₀ w r w₁ n w₂, t = t₀ ++ w ++ 0x7B :: (r ++ w₁ ++ 0x22 :: n ++ 0x22 :: w₂ ++ [0x3A]) ∧ Open .value fs t₀ ∧
        IsSpaces w ∧ MembersBefore ps r ∧ IsSpaces w₁ ∧ IsChars n k ∧ IsSpaces w₂
  | .name ps, fs, t => ∃ t₀ w r, t = t₀ ++ w ++ 0x7B :: r ∧ Open .value fs t₀ ∧ IsSpaces w ∧ MembersBefore ps r

variable {v : Value} {w s t w' : List Nat} {fs : List Frame}

theorem elementsBefore_more {vs : List Value} {r : List Nat} (elements : ElementsBefore vs r)
    (before : IsSpaces w) (value : IsValue NestedNumber v s) (after : IsSpaces w') :
    ElementsBefore (vs ++ [v]) (r ++ (w ++ s ++ w' ++ [0x2C])) := by
  intro us s' rest
  have more := elements (v :: us) (w ++ s ++ w' ++ 0x2C :: s') (.more before value after rest)
  simpa using more

theorem membersBefore_more {ps : List (List Nat × Value)} {k : List Nat} {r n w₁ w₂ w3 : List Nat}
    (members : MembersBefore ps r) (before : IsSpaces w) (name : IsChars n k) (colon : IsSpaces w₁)
    (behind : IsSpaces w₂) (value : IsValue NestedNumber v s) (after : IsSpaces w3) :
    MembersBefore (ps ++ [(k, v)]) (r ++ (w ++ 0x22 :: n ++ 0x22 :: w₁ ++ 0x3A :: w₂ ++ s ++ w3 ++ [0x2C])) := by
  intro us s' rest
  have more := members _ _ (IsMembers.more before name colon behind value after rest)
  simpa using more

theorem opened_of_open {e : Expect} (starts : Open e fs t) : Opened e fs t := by
  induction starts with
  | start => rfl
  | @array fs t w outer spaces _ => exact ⟨t, w, [], by simp, outer, spaces, fun us s elements => elements⟩
  | @element vs v fs t w s w' outer before value after ih =>
    obtain ⟨t₀, w0, r, rfl, outer0, spaces, elements⟩ := ih
    exact ⟨t₀, w0, _, by simp, outer0, spaces, elementsBefore_more elements before value after⟩
  | @object fs t w outer spaces _ => exact ⟨t, w, [], by simp, outer, spaces, fun us s members => members⟩
  | @member ps k v fs t w s w' outer before value after ih =>
    obtain ⟨t₀, w0, r, w₁, n, w₂, rfl, outer0, spaces, members, spaces1, name, spaces2⟩ := ih
    exact ⟨t₀, w0, _, by simp, outer0, spaces,
      membersBefore_more members spaces1 name spaces2 before value after⟩
  | @name ps k fs t w n w' outer spaces chars colon ih =>
    obtain ⟨t₀, w0, r, rfl, outer0, spaces0, members⟩ := ih
    exact ⟨t₀, w0, r, w, n, w', by simp, outer0, spaces0, members, spaces, chars, colon⟩

theorem open_nil (starts : Open .value [] t) : t = [] := opened_of_open starts

/-- An open array with its last value and the closing bracket. -/
theorem close_array {vs : List Value} (outer : Open .value (.array vs :: fs) t) (before : IsSpaces w)
    (value : IsValue NestedNumber v s) (after : IsSpaces w') :
    ∃ t₀ w0 s0, t ++ w ++ s ++ w' ++ [0x5D] = t₀ ++ w0 ++ s0 ∧ Open .value fs t₀ ∧ IsSpaces w0 ∧
      IsValue NestedNumber (.array (vs ++ [v])) s0 := by
  obtain ⟨t₀, w0, r, rfl, outer0, spaces, elements⟩ := opened_of_open outer
  exact ⟨t₀, w0, _, by simp, outer0, spaces, .array (elements _ _ (.one before value after))⟩

/-- An open object with its last value and the closing brace. -/
theorem close_object {ps : List (List Nat × Value)} {k : List Nat}
    (outer : Open .value (.object ps k :: fs) t) (before : IsSpaces w) (value : IsValue NestedNumber v s)
    (after : IsSpaces w') :
    ∃ t₀ w0 s0, t ++ w ++ s ++ w' ++ [0x7D] = t₀ ++ w0 ++ s0 ∧ Open .value fs t₀ ∧ IsSpaces w0 ∧
      IsValue NestedNumber (.object (ps ++ [(k, v)])) s0 := by
  obtain ⟨t₀, w0, r, w₁, n, w₂, rfl, outer0, spaces, members, spaces1, name, spaces2⟩ := opened_of_open outer
  exact ⟨t₀, w0, _, by simp, outer0, spaces, .object (members _ _ (.one spaces1 name spaces2 before value after))⟩

/-! ## The machine at a start -/

/-- The machine comes to a position. Where a name is next, it is there in the middle of a step. -/
def Reached (mem : List Nat) (range b : Nat) : Expect → List Frame → Nat → Prop
  | .value, fs, p => ∃ parser, Steps mem (startConfig b range) ⟨parser, fs, .token⟩ ∧ At mem range parser p
  | .name ps, fs, p => ∃ parser, At mem range parser p ∧ ∀ name parser',
      parseName mem (skipStartWhiteSpace mem parser) = .ok (name, parser') →
        Steps mem (startConfig b range) ⟨parser', .object ps name :: fs, .token⟩

/-- What is left does not start with the bracket that closes an empty array. -/
def Continues : Expect → List Nat → Prop
  | .value, rest => StartsWithout 0x5D rest
  | .name _, _ => True

section Reach

variable (last : isSpace (unit mem range) = false)

include last

/-- A value of an array or object with the comma behind it. -/
theorem value_comma_run {parser : Parser} {p : Nat} {f : Frame} {rest : List Nat}
    (stands : At mem range parser p) (left : mem.drop p = w ++ (s ++ (w' ++ 0x2C :: rest)))
    (before : IsSpaces w) (value : IsValue NestedNumber v s) (after : IsSpaces w')
    (inside : p + w.length + s.length + w'.length ≤ range)
    (comma : p + w.length + s.length + w'.length < range ∨ w' = []) (small : range < p + 2 ^ 32) :
    ∃ parser', Steps mem ⟨parser, f :: fs, .token⟩ ⟨parser', f :: fs, .behind v⟩ ∧
      At mem range parser' (p + w.length + s.length) :=
  (runs_value last value).1 parser p (f :: fs) w _ (by simp) stands left before
    ⟨w', 0x2C, rest, rfl, after, by decide, inside, fun _ => comma⟩ small

/-- The machine comes to every start of a text. -/
theorem reached_of_open (small : range < b + 2 ^ 32) {e : Expect} (starts : Open e fs t) {rest : List Nat}
    (left : mem.drop b = t ++ rest) (inside : b + t.length ≤ range) (continues : Continues e rest) :
    Reached mem range b e fs (b + t.length) := by
  induction starts generalizing rest with
  | start => exact ⟨⟨b, range, range⟩, Relation.ReflTransGen.refl, at_start mem b range⟩
  | @array fs t w outer spaces ih =>
    simp only [List.append_assoc, List.singleton_append] at left
    simp only [List.length_append, List.length_singleton] at inside ⊢
    obtain ⟨parser, steps, stands⟩ := ih left (by omega) ⟨w, 0x5B, rest, rfl, spaces, by decide, by decide⟩
    obtain ⟨parser', step, stands'⟩ := open_array_step last fs stands (drop_append left) spaces continues
    refine ⟨parser', steps.tail step, ?_⟩
    rw [show b + (t.length + w.length + 1) = b + t.length + w.length + 1 by omega]
    exact stands'
  | @element vs v fs t w s w' outer before value after ih =>
    simp only [List.append_assoc, List.singleton_append] at left
    simp only [List.length_append, List.length_singleton] at inside ⊢
    obtain ⟨parser, steps, stands⟩ := ih left (by omega) (isValue_starts before value)
    have left1 := drop_append left
    obtain ⟨parser1, steps1, stands1⟩ := value_comma_run last stands left1 before value after (by omega)
      (.inl (by omega)) (by omega)
    obtain ⟨parser2, step, stands2⟩ := comma_step last stands1 (drop_append (drop_append left1)) after vs fs v
    refine ⟨parser2, (steps.trans steps1).tail step, ?_⟩
    rw [show b + (t.length + w.length + s.length + w'.length + 1) =
      b + t.length + w.length + s.length + w'.length + 1 by omega]
    exact stands2
  | @object fs t w outer spaces ih =>
    simp only [List.append_assoc, List.singleton_append] at left
    simp only [List.length_append, List.length_singleton] at inside ⊢
    obtain ⟨parser, steps, stands⟩ := ih left (by omega) ⟨w, 0x7B, rest, rfl, spaces, by decide, by decide⟩
    obtain ⟨parser1, stands1, named⟩ := open_object_step last fs stands (drop_append left) spaces
    refine ⟨parser1, ?_, fun name parser2 parsed => steps.tail (named name parser2 parsed)⟩
    rw [show b + (t.length + w.length + 1) = b + t.length + w.length + 1 by omega]
    exact stands1
  | @member ps k v fs t w s w' outer before value after ih =>
    simp only [List.append_assoc, List.singleton_append] at left
    simp only [List.length_append, List.length_singleton] at inside ⊢
    obtain ⟨parser, steps, stands⟩ := ih left (by omega) (isValue_starts before value)
    have left1 := drop_append left
    obtain ⟨parser1, steps1, stands1⟩ := value_comma_run last stands left1 before value after (by omega)
      (.inl (by omega)) (by omega)
    obtain ⟨parser2, stands2, named⟩ := comma_object_step last stands1 (drop_append (drop_append left1)) after ps k fs v
    refine ⟨parser2, ?_, fun name parser3 parsed => (steps.trans steps1).tail (named name parser3 parsed)⟩
    rw [show b + (t.length + w.length + s.length + w'.length + 1) =
      b + t.length + w.length + s.length + w'.length + 1 by omega]
    exact stands2
  | @name ps k fs t w n w' outer spaces chars colon ih =>
    simp only [List.append_assoc, List.singleton_append, List.cons_append] at left
    simp only [List.length_append, List.length_cons, List.length_nil, Nat.zero_add] at inside ⊢
    obtain ⟨parser, stands, named⟩ := ih left (by omega) trivial
    obtain ⟨parser', parsed, stands', _⟩ := name_run last stands (drop_append left) spaces chars colon
      (passed_before chars (by omega))
    refine ⟨parser', named k parser' parsed, ?_⟩
    rw [show b + (t.length + w.length + (n.length + 1) + (w'.length + 1) + 1) =
      b + t.length + w.length + n.length + 2 + w'.length + 1 by omega]
    exact stands'

end Reach

end Json

end ArkRuntime
