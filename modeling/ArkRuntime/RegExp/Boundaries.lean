import ArkRuntime.RegExp.LexerModel

/-!
# Boundaries of words and lines

`OP_WORD_BOUNDARY` asks `IsWordChar`, whose parameter is a byte, so it sees the low byte of a character
where `\w` compares the character. `OP_LINE_START` and `OP_LINE_END` know one line terminator, `OP_DOTS`
four.
-/

namespace ArkRuntime

namespace RegExp

namespace Executor

variable (e : Executor)

/-- The instruction goes on. -/
def Succeeds (instr : Instr) (s : ExecState) : Prop := ∃ s', e.handle instr s = some (.next s')

/-- The instruction gives up. -/
def Fails (instr : Instr) (s : ExecState) : Prop := e.handle instr s = some .fail

/-- The character before a position, if there is one. -/
def charBefore (ptr : Nat) : Option Nat := e.peekPrevChar ptr 0

/-- The character after a position, if there is one. -/
def charAfter (ptr : Nat) : Option Nat := e.peekChar ptr e.input.length

variable {e} {s : ExecState} {ptr c q : Nat}

theorem unit_of_lt (inside : ptr < e.input.length) : ∃ c, e.unit ptr = some c :=
  ⟨e.input[ptr].toNat, by simp [unit, inside]⟩

theorem getChar_of_lt (inside : ptr < e.input.length) : ∃ c q, e.getChar ptr e.input.length = some (c, q) := by
  obtain ⟨c, first⟩ := unit_of_lt inside
  simp only [getChar, first, Option.bind_eq_bind, Option.bind_some]
  split
  · rename_i wide
    obtain ⟨c1, second⟩ : ∃ c1, e.unit (ptr + 1) = some c1 := unit_of_lt (by simp_all)
    simp only [second, Option.bind_some]
    split
    · exact ⟨_, _, rfl⟩
    · exact ⟨_, _, rfl⟩
  · exact ⟨_, _, rfl⟩

theorem getPrevChar_of_pos (positive : 0 < ptr) (inside : ptr ≤ e.input.length) :
    ∃ c q, e.getPrevChar ptr 0 = some (c, q) := by
  obtain ⟨c, last⟩ : ∃ c, e.unit (ptr - 1) = some c := unit_of_lt (by omega)
  simp only [getPrevChar, show ptr ≠ 0 by omega, if_false, last, Option.bind_eq_bind, Option.bind_some]
  split
  · obtain ⟨c1, before⟩ : ∃ c1, e.unit (ptr - 2) = some c1 := unit_of_lt (by omega)
    simp only [before, Option.bind_some]
    split
    · exact ⟨_, _, rfl⟩
    · exact ⟨_, _, rfl⟩
  · exact ⟨_, _, rfl⟩

theorem charBefore_zero : e.charBefore 0 = none := rfl

theorem charAfter_of_eof (eof : e.isEOF ptr = true) : e.charAfter ptr = none := by
  have outside : e.unit ptr = none := by simpa [unit, isEOF] using eof
  simp [charAfter, peekChar, getChar, outside]

/-- Either side of a position in the input has a character or ends the input there. -/
theorem charBefore_cases (inside : ptr ≤ e.input.length) :
    (ptr = 0 ∧ e.charBefore ptr = none) ∨ (ptr ≠ 0 ∧ ∃ c, e.charBefore ptr = some c) := by
  by_cases zero : ptr = 0
  · subst zero
    exact .inl ⟨rfl, charBefore_zero⟩
  · obtain ⟨c, q, found⟩ := getPrevChar_of_pos (by omega) inside
    exact .inr ⟨zero, c, by simp [charBefore, peekPrevChar, found]⟩

theorem charAfter_cases (e : Executor) (ptr : Nat) :
    (e.isEOF ptr = true ∧ e.charAfter ptr = none) ∨ (e.isEOF ptr = false ∧ ∃ c, e.charAfter ptr = some c) := by
  cases eof : e.isEOF ptr with
  | true => exact .inl ⟨rfl, charAfter_of_eof eof⟩
  | false =>
    obtain ⟨c, q, found⟩ := getChar_of_lt (show ptr < e.input.length by simpa [isEOF] using eof)
    exact .inr ⟨rfl, c, by simp [charAfter, peekChar, found]⟩

/-! ## Words -/

/-- A character of `\w`; no character is outside. -/
def InWord (c : Option Nat) : Prop := ∃ v ∈ c, Pattern.rangeW.Covers v

/-- The character is not in `\w`, but the character of its low byte is. -/
def Misread (c : Option Nat) : Prop := ∃ v ∈ c, ¬Pattern.rangeW.Covers v ∧ Pattern.rangeW.Covers (v % 256)

theorem covers_rangeW {v : Nat} : Pattern.rangeW.Covers v ↔
    (48 ≤ v ∧ v ≤ 57) ∨ (65 ≤ v ∧ v ≤ 90) ∨ v = 95 ∨ (97 ≤ v ∧ v ≤ 122) := by
  simp only [RangeSet.Covers, Pattern.rangeW, List.mem_cons, List.not_mem_nil, or_false, exists_eq_or_imp,
    exists_eq_left]
  omega

/-- `IsWordChar` tests the low byte. -/
theorem isWordChar_iff {v : Nat} : isWordChar v = true ↔ Pattern.rangeW.Covers (v % 256) := by
  rw [covers_rangeW]
  simp only [isWordChar, Bool.or_eq_true, Bool.and_eq_true, decide_eq_true_eq, beq_iff_eq]
  omega

theorem isWordChar_iff_misread {c : Option Nat} :
    c.any isWordChar = true ↔ InWord c ∨ Misread c := by
  cases c with
  | none => simp [InWord, Misread]
  | some v =>
    have small : Pattern.rangeW.Covers v → Pattern.rangeW.Covers (v % 256) := by
      rw [covers_rangeW, covers_rangeW]
      omega
    have step : isWordChar v = true ↔ Pattern.rangeW.Covers v ∨ (¬Pattern.rangeW.Covers v ∧ Pattern.rangeW.Covers (v % 256)) := by
      rw [isWordChar_iff]
      constructor
      · intro low
        by_cases full : Pattern.rangeW.Covers v
        · exact .inl full
        · exact .inr ⟨full, low⟩
      · rintro (full | ⟨-, low⟩)
        · exact small full
        · exact low
    simpa [InWord, Misread] using step

theorem not_inWord_of_misread {c : Option Nat} (misread : Misread c) : ¬InWord c := by
  rintro ⟨v, rfl, covered⟩
  obtain ⟨w, here, outside, -⟩ := misread
  cases here
  exact outside covered

/-- What the two instructions compare. -/
theorem handleOpWordBoundary_eq (inside : s.currentPtr ≤ e.input.length) (instr : Instr) :
    e.handleOpWordBoundary instr s =
      if (instr = .wordBoundary ∧
            (e.charBefore s.currentPtr).any isWordChar ≠ (e.charAfter s.currentPtr).any isWordChar) ∨
          (instr = .notWordBoundary ∧
            (e.charBefore s.currentPtr).any isWordChar = (e.charAfter s.currentPtr).any isWordChar)
      then some (.next (advance s instr 0)) else some .fail := by
  simp only [handleOpWordBoundary, Option.bind_eq_bind]
  obtain ⟨zero, none⟩ | ⟨positive, c, before⟩ := charBefore_cases inside <;>
    obtain ⟨eof, none'⟩ | ⟨more, d, after⟩ := charAfter_cases e s.currentPtr
  · simp [if_pos zero, eof, none, none']
  · simp [if_pos zero, more, none, after, show e.peekChar s.currentPtr e.input.length = some d from after]
  · simp [if_neg positive, eof, none', before, show e.peekPrevChar s.currentPtr 0 = some c from before]
  · simp [if_neg positive, more, before, after, show e.peekPrevChar s.currentPtr 0 = some c from before,
      show e.peekChar s.currentPtr e.input.length = some d from after]

theorem wordBoundary_succeeds_iff (inside : s.currentPtr ≤ e.input.length) :
    e.Succeeds .wordBoundary s ↔
      ¬((e.charBefore s.currentPtr).any isWordChar = true ↔ (e.charAfter s.currentPtr).any isWordChar = true) := by
  rw [Succeeds, show e.handle .wordBoundary s = e.handleOpWordBoundary .wordBoundary s from rfl,
    handleOpWordBoundary_eq inside, Bool.coe_iff_coe]
  split <;> simp_all

theorem notWordBoundary_succeeds_iff (inside : s.currentPtr ≤ e.input.length) :
    e.Succeeds .notWordBoundary s ↔ e.Fails .wordBoundary s := by
  rw [Succeeds, Fails, show e.handle .notWordBoundary s = e.handleOpWordBoundary .notWordBoundary s from rfl,
    show e.handle .wordBoundary s = e.handleOpWordBoundary .wordBoundary s from rfl,
    handleOpWordBoundary_eq inside, handleOpWordBoundary_eq inside]
  by_cases same : (e.charBefore s.currentPtr).any isWordChar = (e.charAfter s.currentPtr).any isWordChar
  · simp [same]
  · simp [same]

/-- The two instructions agree with `\w` if and only if both neighbours of the position are misread or
    neither is. -/
theorem wordBoundary_iff (e : Executor) (s : ExecState) (inside : s.currentPtr ≤ e.input.length) :
    ((e.Succeeds .wordBoundary s ↔ Xor (InWord (e.charBefore s.currentPtr)) (InWord (e.charAfter s.currentPtr))) ∧
        (e.Succeeds .notWordBoundary s ↔ e.Fails .wordBoundary s)) ↔
      (Misread (e.charBefore s.currentPtr) ↔ Misread (e.charAfter s.currentPtr)) := by
  have before := not_inWord_of_misread (c := e.charBefore s.currentPtr)
  have after := not_inWord_of_misread (c := e.charAfter s.currentPtr)
  rw [wordBoundary_succeeds_iff inside, notWordBoundary_succeeds_iff inside, isWordChar_iff_misread,
    isWordChar_iff_misread, xor_iff_not_iff]
  tauto

/-- "1" before "Ł", whose low byte is that of "A": one character of `\w` and one that is not, but no boundary. -/
def digitAndStroke : Executor where
  icu := ⟨id, id⟩
  program := ⟨[], 0, 0, 0, 0⟩
  input := ['1'.toNat.toUInt16, 0x141]
  isWideChar := true

theorem wordBoundary_missed :
    ¬((digitAndStroke.Succeeds .wordBoundary ⟨0, 1, [], [], 0⟩ ↔
        Xor (InWord (digitAndStroke.charBefore 1)) (InWord (digitAndStroke.charAfter 1))) ∧
      (digitAndStroke.Succeeds .notWordBoundary ⟨0, 1, [], [], 0⟩ ↔
        digitAndStroke.Fails .wordBoundary ⟨0, 1, [], [], 0⟩)) := by
  rintro ⟨boundary, -⟩
  have before : digitAndStroke.charBefore 1 = some 49 := by decide
  have after : digitAndStroke.charAfter 1 = some 0x141 := by decide
  have fails : digitAndStroke.handle .wordBoundary ⟨0, 1, [], [], 0⟩ = some .fail := rfl
  have one : Xor (InWord (digitAndStroke.charBefore 1)) (InWord (digitAndStroke.charAfter 1)) := by
    rw [before, after]
    refine .inl ⟨⟨49, rfl, covers_rangeW.mpr (by omega)⟩, ?_⟩
    rintro ⟨v, here, covered⟩
    cases here
    exact absurd (covers_rangeW.mp covered) (by omega)
  obtain ⟨s', goes⟩ := boundary.mpr one
  rw [fails] at goes
  cases goes

theorem wordBoundary_iff_digitAndStroke :
    ((digitAndStroke.Succeeds .wordBoundary ⟨0, 0, [], [], 0⟩ ↔
        Xor (InWord (digitAndStroke.charBefore 0)) (InWord (digitAndStroke.charAfter 0))) ∧
      (digitAndStroke.Succeeds .notWordBoundary ⟨0, 0, [], [], 0⟩ ↔
        digitAndStroke.Fails .wordBoundary ⟨0, 0, [], [], 0⟩)) ↔
      (Misread (digitAndStroke.charBefore 0) ↔ Misread (digitAndStroke.charAfter 0)) :=
  wordBoundary_iff digitAndStroke ⟨0, 0, [], [], 0⟩ (by decide)

/-! ## Lines -/

/-- `OP_DOTS` refuses the character behind a position. -/
def Refused (e : Executor) (s : ExecState) (ptr : Nat) : Prop := e.Fails .dots { s with currentPtr := ptr }

/-- A line terminator that `OP_LINE_START` and `OP_LINE_END` do not know. -/
def UnknownTerminator (c : Option Nat) : Prop := ∃ v ∈ c, v = 13 ∨ v = 0x2028 ∨ v = 0x2029

theorem dots_fails_iff (found : e.charAfter s.currentPtr = some c) :
    e.Fails .dots s ↔ isTerminator c = true := by
  obtain ⟨-, none⟩ | ⟨more, -⟩ := charAfter_cases e s.currentPtr
  · rw [none] at found
    cases found
  · obtain ⟨⟨d, q⟩, read, same⟩ := Option.map_eq_some_iff.mp found
    cases same
    simp only [Fails, handle, handleOpAll, more, read, Option.bind_eq_bind, Option.bind_some]
    cases isTerminator d with
    | true => simp
    | false => simp

theorem not_terminator_of_le (large : 0x10000 ≤ c) : isTerminator c = false := by
  simp only [isTerminator, Bool.or_eq_false_iff, beq_eq_false_iff_ne]
  omega

/-- A character above the basic plane is no line terminator. -/
theorem supplementary_not_terminator {lead trail : Nat} (first : isLead lead = true) (second : isTrail trail = true) :
    isTerminator (supplementary lead trail) = false := by
  have high : lead &&& 0xfc00 ≤ lead := Nat.and_le_left
  rw [show lead &&& 0xfc00 = 0xd800 from beq_iff_eq.mp first] at high
  have low : trail &&& 0xfc00 ≤ trail := Nat.and_le_left
  rw [show trail &&& 0xfc00 = 0xdc00 from beq_iff_eq.mp second] at low
  have large : 0x10000 ≤ supplementary lead trail := by
    unfold supplementary
    omega
  exact not_terminator_of_le large

theorem lead_not_terminator (first : isLead c = true) : isTerminator c = false := by
  cases known : isTerminator c with
  | false => rfl
  | true =>
    simp only [isTerminator, Bool.or_eq_true, beq_iff_eq] at known
    obtain ((rfl | rfl) | rfl) | rfl := known <;> simp [isLead] at first

/-- Read again from its own position, the character before a position is the same, or the position is inside of
    a pair, of which neither the first half nor the whole is a line terminator. -/
theorem charAfter_of_prev (inside : ptr ≤ e.input.length) (read : e.getPrevChar ptr 0 = some (c, q)) :
    ∃ d, e.charAfter q = some d ∧ isTerminator d = isTerminator c := by
  have positive : ptr ≠ 0 := by
    rintro rfl
    cases read
  obtain ⟨last, unit⟩ : ∃ last, e.unit (ptr - 1) = some last := unit_of_lt (by omega)
  -- the character of one unit at `ptr - 1`
  have single : ∃ d, e.charAfter (ptr - 1) = some d ∧ isTerminator d = isTerminator last := by
    simp only [charAfter, peekChar, getChar, unit, Option.bind_eq_bind, Option.bind_some]
    split
    · rename_i wide
      obtain ⟨c1, next⟩ : ∃ c1, e.unit (ptr - 1 + 1) = some c1 := unit_of_lt (by simp_all)
      have lead : isLead last = true := by simp_all
      simp only [next, Option.bind_some]
      split
      · rename_i trail
        exact ⟨_, rfl, by rw [supplementary_not_terminator lead trail, lead_not_terminator lead]⟩
      · exact ⟨_, rfl, rfl⟩
    · exact ⟨_, rfl, rfl⟩
  simp only [getPrevChar, if_neg positive, unit, Option.bind_eq_bind, Option.bind_some] at read
  split at read
  · rename_i wide
    obtain ⟨c1, before⟩ : ∃ c1, e.unit (ptr - 2) = some c1 := unit_of_lt (by omega)
    simp only [before, Option.bind_some] at read
    split at read
    · rename_i lead
      obtain ⟨rfl, rfl⟩ := Prod.mk.inj (Option.some.inj read)
      have here : ptr - 2 + 1 = ptr - 1 := by
        simp only [Bool.and_eq_true, decide_eq_true_eq] at wide
        omega
      have room : ptr - 1 < e.input.length := by omega
      refine ⟨supplementary c1 last, ?_, rfl⟩
      simp_all [charAfter, peekChar, getChar]
    · cases read
      exact single
  · cases read
    exact single

theorem lineStart_succeeds_iff (multiline : e.isMultiline = true) :
    e.Succeeds .lineStart s ↔ s.currentPtr = 0 ∨ e.charBefore s.currentPtr = some 10 := by
  rw [Succeeds, show e.handle .lineStart s = e.handleOpLineStart .lineStart s from rfl, handleOpLineStart]
  by_cases zero : s.currentPtr = 0
  · simp [zero]
  · rw [if_neg zero, if_pos multiline, show e.peekPrevChar s.currentPtr 0 = e.charBefore s.currentPtr from rfl]
    cases e.charBefore s.currentPtr with
    | none => simp [zero]
    | some c =>
      by_cases newline : c = 10
      · simp [newline]
      · simp [newline, zero]

theorem lineEnd_succeeds_iff (multiline : e.isMultiline = true) :
    e.Succeeds .lineEnd s ↔ e.isEOF s.currentPtr = true ∨ e.charAfter s.currentPtr = some 10 := by
  rw [Succeeds, show e.handle .lineEnd s = e.handleOpLineEnd .lineEnd s from rfl, handleOpLineEnd]
  cases eof : e.isEOF s.currentPtr with
  | true => simp
  | false =>
    rw [if_neg Bool.false_ne_true, if_pos multiline,
      show e.peekChar s.currentPtr e.input.length = e.charAfter s.currentPtr from rfl]
    cases e.charAfter s.currentPtr with
    | none => simp
    | some c =>
      by_cases newline : c = 10
      · simp [newline]
      · simp [newline]

theorem isTerminator_iff : isTerminator c = true ↔ c = 10 ∨ UnknownTerminator (some c) := by
  simp only [isTerminator, UnknownTerminator, Bool.or_eq_true, beq_iff_eq, Option.mem_def, Option.some.injEq,
    exists_eq_left']
  tauto

theorem not_unknownTerminator_none : ¬UnknownTerminator none := by
  rintro ⟨v, here, -⟩
  cases here

theorem unknownTerminator_ten : ¬UnknownTerminator (some 10) := by
  rintro ⟨v, here, known⟩
  cases here
  omega

/-- The three instructions share their line terminators at a position if and only if neither neighbour is one of
    the three that the line anchors do not know. -/
theorem lineBoundary_iff (e : Executor) (s : ExecState) (inside : s.currentPtr ≤ e.input.length)
    (multiline : e.isMultiline = true) :
    ((e.Succeeds .lineStart s ↔ s.currentPtr = 0 ∨
          ∃ c ptr, e.getPrevChar s.currentPtr 0 = some (c, ptr) ∧ Refused e s ptr) ∧
        (e.Succeeds .lineEnd s ↔ s.currentPtr = e.input.length ∨ Refused e s s.currentPtr)) ↔
      ¬UnknownTerminator (e.charBefore s.currentPtr) ∧ ¬UnknownTerminator (e.charAfter s.currentPtr) := by
  have start : (e.Succeeds .lineStart s ↔ s.currentPtr = 0 ∨
      ∃ c ptr, e.getPrevChar s.currentPtr 0 = some (c, ptr) ∧ Refused e s ptr) ↔
      ¬UnknownTerminator (e.charBefore s.currentPtr) := by
    rw [lineStart_succeeds_iff multiline]
    obtain ⟨zero, none⟩ | ⟨positive, c, before⟩ := charBefore_cases inside
    · rw [none]
      exact iff_of_true (iff_of_true (.inl zero) (.inl zero)) not_unknownTerminator_none
    · obtain ⟨⟨d, q⟩, read, same⟩ := Option.map_eq_some_iff.mp before
      cases same
      obtain ⟨d', again, alike⟩ := charAfter_of_prev inside read
      have refused : Refused e s q ↔ isTerminator d = true := by
        rw [← alike]
        exact dots_fails_iff again
      have found : (∃ c ptr, e.getPrevChar s.currentPtr 0 = some (c, ptr) ∧ Refused e s ptr) ↔
          isTerminator d = true := by
        rw [← refused, read]
        constructor
        · rintro ⟨c, ptr, same, fails⟩
          cases same
          exact fails
        · exact fun fails => ⟨d, q, rfl, fails⟩
      rw [found, before, isTerminator_iff, Option.some.injEq]
      have apart := unknownTerminator_ten
      by_cases newline : d = 10
      · simp [newline, apart]
      · simp [newline, positive]
  have finish : (e.Succeeds .lineEnd s ↔ s.currentPtr = e.input.length ∨ Refused e s s.currentPtr) ↔
      ¬UnknownTerminator (e.charAfter s.currentPtr) := by
    rw [lineEnd_succeeds_iff multiline]
    obtain ⟨eof, none⟩ | ⟨more, c, after⟩ := charAfter_cases e s.currentPtr
    · have last : s.currentPtr = e.input.length := Nat.le_antisymm inside (by simpa [isEOF] using eof)
      rw [none]
      exact iff_of_true (iff_of_true (.inl eof) (.inl last)) not_unknownTerminator_none
    · have before : s.currentPtr ≠ e.input.length := by
        intro last
        simp [isEOF, last] at more
      rw [show Refused e s s.currentPtr ↔ isTerminator c = true from dots_fails_iff after, after,
        isTerminator_iff, Option.some.injEq]
      have apart := unknownTerminator_ten
      by_cases newline : c = 10
      · simp [newline, apart]
      · simp [newline, before, more]
  rw [start, finish]

/-- A carriage return behind the start of a line, with the flag for more lines. -/
def returnBefore : Executor where
  icu := ⟨id, id⟩
  program := ⟨[], 0, 0, 0, 2 ^ flagMultiline⟩
  input := ['\r'.toNat.toUInt16, 'a'.toNat.toUInt16]
  isWideChar := false

theorem lineStart_missed :
    ¬((returnBefore.Succeeds .lineStart ⟨0, 1, [], [], 0⟩ ↔ 1 = 0 ∨
          ∃ c ptr, returnBefore.getPrevChar 1 0 = some (c, ptr) ∧ Refused returnBefore ⟨0, 1, [], [], 0⟩ ptr) ∧
        (returnBefore.Succeeds .lineEnd ⟨0, 1, [], [], 0⟩ ↔
          1 = returnBefore.input.length ∨ Refused returnBefore ⟨0, 1, [], [], 0⟩ 1)) := by
  rintro ⟨start, -⟩
  obtain ⟨s', goes⟩ := start.mpr (.inr ⟨13, 0, by decide, rfl⟩)
  have fails : returnBefore.handle .lineStart ⟨0, 1, [], [], 0⟩ = some .fail := rfl
  rw [fails] at goes
  cases goes

theorem lineBoundary_iff_returnBefore :
    ((returnBefore.Succeeds .lineStart ⟨0, 0, [], [], 0⟩ ↔ 0 = 0 ∨
          ∃ c ptr, returnBefore.getPrevChar 0 0 = some (c, ptr) ∧ Refused returnBefore ⟨0, 0, [], [], 0⟩ ptr) ∧
        (returnBefore.Succeeds .lineEnd ⟨0, 0, [], [], 0⟩ ↔
          0 = returnBefore.input.length ∨ Refused returnBefore ⟨0, 0, [], [], 0⟩ 0)) ↔
      ¬UnknownTerminator (returnBefore.charBefore 0) ∧ ¬UnknownTerminator (returnBefore.charAfter 0) :=
  lineBoundary_iff returnBefore ⟨0, 0, [], [], 0⟩ (by decide) (by decide)

end Executor

end RegExp

end ArkRuntime
