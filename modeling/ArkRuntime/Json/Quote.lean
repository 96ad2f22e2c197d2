import ArkRuntime.Json.Strings
import ArkRuntime.Utf.RoundTrip
import Mathlib.Data.List.TakeWhile

/-!
# `ValueToQuotedString`

The stringifier quotes the bytes of modified UTF-8 (`ecmascript/base/json_helper.cpp`), the parser works on UTF-16
units. Between them are code points: each one of the string is quoted for itself, and its quoted form is what the
parser reads as its units. `ConvertRegionMUtf8ToUtf16`, which is not part of the repository, is a parameter.
-/

namespace ArkRuntime

namespace Json

open Utf

/-! ## Quoting bytes -/

def codeSpace : Int8 := 0x20
def zeroFirst : UInt8 := 0xc0
def aloneSurrogate3bFirst : UInt8 := 0xed
def aloneSurrogate3bSecondStart : UInt8 := 0xa0
def aloneSurrogate3bSecondEnd : UInt8 := 0xbf
def aloneSurrogate3bThirdStart : UInt8 := 0x80
def aloneSurrogate3bThirdEnd : UInt8 := 0xbf

/-- The tests of `IsFastValueToQuotedString`; `char` is signed. -/
def isFastChar (c : UInt8) : Bool :=
  c ∉ [0x22, 0x5C, 0x08, 0x0C, 0x0A, 0x0D, 0x09] ∧
    ¬((0 < c.toInt8 ∧ c.toInt8 < codeSpace) ∨ c = zeroFirst ∨ c = aloneSurrogate3bFirst)

def isFastValueToQuotedString (value : List UInt8) : Bool := value.all isFastChar

/-- `\u`, and the number in hexadecimal digits, four at least. -/
def unicodeEscape (n : Int) : List UInt8 :=
  0x5C :: 0x75 :: (List.leftpad 4 '0' (Nat.toDigits 16 (n % 2 ^ 32).toNat)).map fun digit => UInt8.ofNat digit.toNat

/-- The cases of one character. -/
def caseText : UInt8 → Option (List UInt8)
  | 0x22 => some [0x5C, 0x22]
  | 0x5C => some [0x5C, 0x5C]
  | 0x08 => some [0x5C, 0x62]
  | 0x0C => some [0x5C, 0x66]
  | 0x0A => some [0x5C, 0x6E]
  | 0x0D => some [0x5C, 0x72]
  | 0x09 => some [0x5C, 0x74]
  | _ => none

/-- The `default` case. -/
def defaultText (c : UInt8) : List UInt8 :=
  if 0 < c.toInt8 ∧ c.toInt8 < codeSpace then unicodeEscape c.toInt8.toInt else [c]

/-- What is behind the first byte of a lone surrogate; the zero at the end is not one of its bytes. -/
def isAloneSurrogate : List UInt8 → Bool
  | second :: third :: _ =>
      second ≠ 0 ∧ aloneSurrogate3bSecondStart.toInt8 ≤ second.toInt8 ∧
        second.toInt8 ≤ aloneSurrogate3bSecondEnd.toInt8 ∧ aloneSurrogate3bThirdStart.toInt8 ≤ third.toInt8 ∧
        third.toInt8 ≤ aloneSurrogate3bThirdEnd.toInt8
  | _ => false

/-- A round of the loop: what is added to `product`, and what is left of the text. -/
def quoteChar (utf : Constants) (c : UInt8) (behind : List UInt8) : Option (List UInt8 × List UInt8) :=
  match caseText c with
  | some text => some (text, behind)
  | none =>
      if c = zeroFirst then
        match behind with
        | [] => none  -- the loop goes on behind the zero at the end
        | _ :: behind => some (unicodeEscape 0, behind)
      else if c = aloneSurrogate3bFirst ∧ isAloneSurrogate behind = true then do
        let (codePoint, _) ← convertUtf8ToUnicodeChar utf (c :: behind) 3
        return (unicodeEscape codePoint, behind.drop 2)
      else some (defaultText c, behind)

/-- The loop of `ValueToQuotedString`. -/
def quoteFrom (utf : Constants) : Nat → List UInt8 → Option (List UInt8)
  | _, [] => some []
  | 0, _ :: _ => none
  | n + 1, c :: behind => do
      let (text, behind) ← quoteChar utf c behind
      return text ++ (← quoteFrom utf n behind)

/-- `ValueToQuotedString`. -/
def valueToQuotedString (utf : Constants) (str : List UInt8) : Option (List UInt8) :=
  let value := str.takeWhile (· ≠ 0)
  if isFastValueToQuotedString value then some (0x22 :: str ++ [0x22])
  else do
    let text ← quoteFrom utf value.length value
    return 0x22 :: text ++ [0x22]

/-! ## Quoting code points -/

def isSurrogate (c : Nat) : Bool := 0xD800 ≤ c && c ≤ 0xDFFF

/-- The letter behind the backslash, for the code points that have one. -/
def escapeLetter : Nat → Option Nat
  | 0x22 => some 0x22
  | 0x5C => some 0x5C
  | 0x08 => some 0x62
  | 0x0C => some 0x66
  | 0x0A => some 0x6E
  | 0x0D => some 0x72
  | 0x09 => some 0x74
  | _ => none

/-- The quoted form of a code point. -/
def quotePoint (c : Nat) : List Nat :=
  match escapeLetter c with
  | some letter => [0x5C, letter]
  | none => if c < 0x20 ∨ isSurrogate c = true then (unicodeEscape c).map UInt8.toNat else [c]

variable {c x : Nat} {cps : List Nat} {utf16 : List UInt16}

theorem escapeOf_escapeLetter {letter : Nat} (escaped : escapeLetter c = some letter) :
    escapeOf letter = some c ∧ letter < 0x80 := by
  unfold escapeLetter at escaped
  split at escaped
  all_goals first
    | (cases escaped; exact ⟨rfl, by decide⟩)
    | cases escaped

theorem isSurrogate_iff : isSurrogate c = true ↔ 0xD800 ≤ c ∧ c ≤ 0xDFFF := by
  rw [isSurrogate, Bool.and_eq_true, decide_eq_true_eq, decide_eq_true_eq]

/-- A digit is a character of one byte. -/
theorem hexDigit_digitChar : ∀ d : Fin 0x10, hexDigit (UInt8.ofNat (Nat.digitChar d.val).toNat).toNat = some d.val ∧
    UInt8.ofNat (Nat.digitChar d.val).toNat < 0x80 := by
  decide

theorem toDigits_four (four : 0x1000 ≤ c) (most : c < 0x10000) :
    Nat.toDigits 16 c = [c / 16 / 16 / 16, c / 16 / 16 % 16, c / 16 % 16, c % 16].map Nat.digitChar := by
  rw [Nat.toDigits_of_base_le (by decide) (by omega), Nat.toDigits_of_base_le (by decide) (by omega),
    Nat.toDigits_of_base_le (by decide) (by omega), Nat.toDigits_of_lt_base (by omega)]
  rfl

theorem unicodeEscape_control : ∀ x : Fin 0x20, unicodeEscape (x.val : Nat) =
    0x5C :: 0x75 :: [0, 0, x.val / 16, x.val % 16].map fun d => UInt8.ofNat (Nat.digitChar d).toNat := by
  decide

theorem unicodeEscape_eq (escaped : c < 0x20 ∨ isSurrogate c = true) :
    unicodeEscape c = 0x5C :: 0x75 :: [c / 16 / 16 / 16, c / 16 / 16 % 16, c / 16 % 16, c % 16].map fun d =>
      UInt8.ofNat (Nat.digitChar d).toNat := by
  rcases escaped with control | surrogate
  · rw [show c / 16 / 16 / 16 = 0 by omega, show c / 16 / 16 % 16 = 0 by omega, show c / 16 % 16 = c / 16 by omega]
    exact unicodeEscape_control ⟨c, control⟩
  · have bounds := isSurrogate_iff.mp surrogate
    have value : ((c : Int) % 2 ^ 32).toNat = c := by omega
    rw [unicodeEscape, value, toDigits_four (by omega) (by omega)]
    rfl

/-- The digits of an escape. -/
theorem unicodeEscape_cases (escaped : c < 0x20 ∨ isSurrogate c = true) :
    ∃ x y z w : UInt8, unicodeEscape c = [0x5C, 0x75, x, y, z, w] ∧
      hexUnit x.toNat y.toNat z.toNat w.toNat = some c ∧ ∀ b ∈ [0x5C, 0x75, x, y, z, w], b < 0x80 := by
  have small : c < 0x10000 := by
    rcases escaped with control | surrogate
    · omega
    · have bounds := isSurrogate_iff.mp surrogate
      omega
  have first := hexDigit_digitChar ⟨c / 16 / 16 / 16, by omega⟩
  have second := hexDigit_digitChar ⟨c / 16 / 16 % 16, by omega⟩
  have third := hexDigit_digitChar ⟨c / 16 % 16, by omega⟩
  have fourth := hexDigit_digitChar ⟨c % 16, by omega⟩
  refine ⟨_, _, _, _, unicodeEscape_eq escaped, ?_, ?_⟩
  · rw [hexUnit, first.1, second.1, third.1, fourth.1]
    refine congrArg some ?_
    dsimp only
    omega
  · simp only [List.forall_mem_cons, first.2, second.2, third.2, fourth.2, List.not_mem_nil, false_implies,
      implies_true, and_true]
    decide

/-- The quoted form stands for the code point. -/
theorem isChars_quotePoint {s r : List Nat} (c : Nat) (rest : IsChars s r) : IsChars (quotePoint c ++ s) (c :: r) := by
  unfold quotePoint
  split
  · next letter escaped => exact .escape (escapeOf_escapeLetter escaped).1 rest
  · next plain =>
    split
    · next escaped =>
      obtain ⟨x, y, z, w, text, hex, -⟩ := unicodeEscape_cases escaped
      rw [text]
      exact .unicode hex rest
    · next other =>
      have notQuote : c ≠ 0x22 := by
        rintro rfl
        cases plain
      have notBackslash : c ≠ 0x5C := by
        rintro rfl
        cases plain
      exact .plain (by omega) notQuote notBackslash rest

theorem isChars_flatMap_quotePoint (cps : List Nat) : IsChars (cps.flatMap quotePoint) cps := by
  induction cps with
  | nil => exact .nil
  | cons c cps ih => exact isChars_quotePoint c ih

/-- A code point of a well-formed text. -/
def IsScalarValue (c : Nat) : Prop := c < 0x110000 ∧ isSurrogate c = false

theorem isScalarValue_of_lt (ascii : c < 0x80) : IsScalarValue c := by
  refine ⟨by omega, Bool.eq_false_iff.mpr fun surrogate => ?_⟩
  have bounds := isSurrogate_iff.mp surrogate
  omega

/-- There is no surrogate in a quoted form. -/
theorem isScalarValue_quotePoint (small : c < 0x110000) : ∀ x ∈ quotePoint c, IsScalarValue x := by
  unfold quotePoint
  split
  · next letter escaped =>
    have ascii := (escapeOf_escapeLetter escaped).2
    simp only [List.forall_mem_cons, List.not_mem_nil, false_implies, implies_true, and_true]
    exact ⟨isScalarValue_of_lt (by decide), isScalarValue_of_lt ascii⟩
  · split
    · next escaped =>
      obtain ⟨x, y, z, w, text, -, ascii⟩ := unicodeEscape_cases escaped
      rw [text]
      intro n inside
      obtain ⟨b, member, rfl⟩ := List.mem_map.mp inside
      exact isScalarValue_of_lt (ascii b member)
    · next other =>
      intro n inside
      rw [List.mem_singleton.mp inside]
      exact ⟨small, Bool.eq_false_iff.mpr (not_or.mp other).2⟩

/-! ## Bytes and code points -/

theorem utf8Bytes_ascii (ascii : c < 0x80) : utf8Bytes c = [UInt8.ofNat c] :=
  if_pos (Nat.le_of_lt_succ ascii)

theorem flatMap_utf8Bytes_ascii {text : List UInt8} (ascii : ∀ b ∈ text, b < 0x80) :
    (text.map UInt8.toNat).flatMap utf8Bytes = text := by
  induction text with
  | nil => rfl
  | cons b text ih =>
    obtain ⟨first, later⟩ := List.forall_mem_cons.mp ascii
    rw [List.map_cons, List.flatMap_cons, ih later, utf8Bytes_ascii (UInt8.lt_iff_toNat_lt.mp first), UInt8.ofNat_toNat]
    rfl

/-- The bytes of the quoted form of an escaped code point. -/
theorem utf8_quotePoint_escaped (letter : escapeLetter c = none) (escaped : c < 0x20 ∨ isSurrogate c = true) :
    (quotePoint c).flatMap utf8Bytes = unicodeEscape c := by
  obtain ⟨x, y, z, w, text, -, ascii⟩ := unicodeEscape_cases escaped
  have form : quotePoint c = (unicodeEscape c).map UInt8.toNat := by
    rw [quotePoint, letter]
    exact if_pos escaped
  rw [form, flatMap_utf8Bytes_ascii (by rwa [text])]

theorem escapeLetter_of_le (above : 0x80 ≤ c) : escapeLetter c = none := by
  unfold escapeLetter
  split
  all_goals first
    | rfl
    | omega

theorem quotePoint_plain (above : 0x80 ≤ c) (scalar : isSurrogate c = false) : quotePoint c = [c] := by
  rw [quotePoint, escapeLetter_of_le above]
  refine if_neg ?_
  rw [scalar]
  rintro (below | same)
  · omega
  · cases same

/-- The cases of the bytes of one-byte characters. -/
theorem asciiText : ∀ x : Fin 0x80, x.val ≠ 0 → UInt8.ofNat x.val ≠ zeroFirst ∧
    UInt8.ofNat x.val ≠ aloneSurrogate3bFirst ∧
    (caseText (UInt8.ofNat x.val)).getD (defaultText (UInt8.ofNat x.val)) = (quotePoint x.val).flatMap utf8Bytes := by
  decide

/-- A byte of a longer character has no case, and is not taken for a control character. -/
theorem highText : ∀ x : Fin 0x80, caseText (UInt8.ofNat (0x80 + x.val)) = none ∧
    defaultText (UInt8.ofNat (0x80 + x.val)) = [UInt8.ofNat (0x80 + x.val)] := by
  decide

variable {utf : Constants}

theorem quoteChar_ascii (positive : c ≠ 0) (ascii : c < 0x80) (behind : List UInt8) :
    quoteChar utf (UInt8.ofNat c) behind = some ((quotePoint c).flatMap utf8Bytes, behind) := by
  obtain ⟨notZero, notSurrogate, text⟩ := asciiText ⟨c, ascii⟩ positive
  unfold quoteChar
  cases case : caseText (UInt8.ofNat c) with
  | some cased =>
    rw [case] at text
    exact congrArg some (congrArg (Prod.mk · behind) text)
  | none =>
    rw [case] at text
    simp only [notZero, notSurrogate, false_and, if_false]
    exact congrArg some (congrArg (Prod.mk · behind) text)

/-- A byte of a longer character that does not start a zero or a lone surrogate. -/
theorem quoteChar_high {behind : List UInt8} (high : 0x80 ≤ x) (byte : x < 0x100) (notZero : x ≠ 0xC0)
    (notAlone : x = 0xED → isAloneSurrogate behind = false) :
    quoteChar utf (UInt8.ofNat x) behind = some ([UInt8.ofNat x], behind) := by
  have text := highText ⟨x - 0x80, by omega⟩
  rw [Nat.add_sub_cancel' high] at text
  have value : (UInt8.ofNat x).toNat = x := toNat_ofNat byte
  have zero : UInt8.ofNat x ≠ zeroFirst := by
    intro same
    rw [same] at value
    exact notZero value.symm
  have alone : ¬(UInt8.ofNat x = aloneSurrogate3bFirst ∧ isAloneSurrogate behind = true) := by
    rintro ⟨same, alone⟩
    rw [same] at value
    rw [notAlone value.symm] at alone
    cases alone
  unfold quoteChar
  rw [text.1]
  simp only [zero, alone, if_false, text.2]

/-- What `ConvertUtf8ToUnicodeChar` makes of three bytes does not depend on those behind them. -/
theorem convertUtf8ToUnicodeChar_three (d0 d1 d2 : UInt8) (more : List UInt8) :
    convertUtf8ToUnicodeChar utf (d0 :: d1 :: d2 :: more) 3 = convertUtf8ToUnicodeChar utf [d0, d1, d2] 3 := rfl

/-- The second and the third byte of a character of three. -/
theorem secondByte : ∀ x : Fin 0x40, UInt8.ofNat (0x80 + x.val) ≠ 0 ∧
    (UInt8.ofNat (0x80 + x.val)).toInt8 ≤ aloneSurrogate3bSecondEnd.toInt8 ∧
    (aloneSurrogate3bSecondStart.toInt8 ≤ (UInt8.ofNat (0x80 + x.val)).toInt8 ↔ 0x20 ≤ x.val) ∧
    aloneSurrogate3bThirdStart.toInt8 ≤ (UInt8.ofNat (0x80 + x.val)).toInt8 := by
  decide

theorem isAloneSurrogate_tails (c : Nat) (more : List UInt8) :
    isAloneSurrogate (tails 2 c ++ more) = decide (0x20 ≤ c / 64 % 64) := by
  obtain ⟨second, below, start, -⟩ := secondByte ⟨c / 64 % 64, Nat.mod_lt _ (by decide)⟩
  obtain ⟨-, last, -, first⟩ := secondByte ⟨c % 64, Nat.mod_lt _ (by decide)⟩
  simp only [tails_two, List.cons_append, List.nil_append, isAloneSurrogate]
  exact decide_eq_decide.mpr ⟨fun tests => start.mp tests.2.1, fun low => ⟨second, start.mpr low, below, first, last⟩⟩

/-- The first byte of a lone surrogate. -/
theorem quoteChar_surrogate (surrogate : isSurrogate c = true) (more : List UInt8) :
    quoteChar .documented (UInt8.ofNat (0xE0 + c / 64 / 64)) (tails 2 c ++ more) =
      some (unicodeEscape c, more) := by
  have bounds := isSurrogate_iff.mp surrogate
  obtain ⟨most, -, bytes⟩ | ⟨-, most, -, bytes⟩ | ⟨above, most, -, bytes⟩ | ⟨above, -, bytes⟩ := utf8Bytes_cases c
  all_goals try omega
  have lead : UInt8.ofNat (0xE0 + c / 64 / 64) = aloneSurrogate3bFirst := by
    rw [show c / 64 / 64 = 13 by omega]
    rfl
  have read := convertUtf8ToUnicodeChar_utf8Bytes (c := c) (by omega) []
  rw [List.append_nil, length_utf8Bytes, bytes, lead, tails_two] at read
  have three : utf8Length c = 3 := by rw [← length_utf8Bytes, bytes, List.length_cons, length_tails]
  have alone : isAloneSurrogate (tails 2 c ++ more) = true := by
    rw [isAloneSurrogate_tails]
    exact decide_eq_true (by omega)
  rw [three] at read
  have here := (convertUtf8ToUnicodeChar_three aloneSurrogate3bFirst _ _ more).trans read
  rw [lead]
  unfold quoteChar
  rw [alone]
  simp only [show caseText aloneSurrogate3bFirst = none from rfl,
    show ¬aloneSurrogate3bFirst = zeroFirst by decide, if_false, true_and, if_true]
  rw [tails_two, List.cons_append, List.cons_append, List.nil_append, here]
  rfl

/-! ## Quoting a text -/

/-- The loop, with enough rounds. -/
def Quoted (bytes out : List UInt8) : Prop := ∀ n, bytes.length ≤ n → quoteFrom .documented n bytes = some out

theorem Quoted.nil : Quoted [] [] := by
  intro n _
  cases n <;> rfl

theorem Quoted.cons {c : UInt8} {behind behind' text out : List UInt8}
    (step : quoteChar .documented c behind = some (text, behind')) (shorter : behind'.length ≤ behind.length)
    (rest : Quoted behind' out) : Quoted (c :: behind) (text ++ out) := by
  intro n enough
  cases n with
  | zero => exact absurd enough (by simp)
  | succ n =>
    rw [List.length_cons] at enough
    rw [quoteFrom, step]
    simp only [Option.bind_eq_bind, Option.bind_some, rest n (by omega)]
    rfl

variable {more out : List UInt8}

theorem Quoted.high (high : 0x80 ≤ x) (byte : x < 0x100) (notZero : x ≠ 0xC0)
    (notAlone : x = 0xED → isAloneSurrogate more = false) (rest : Quoted more out) :
    Quoted (UInt8.ofNat x :: more) (UInt8.ofNat x :: out) :=
  .cons (quoteChar_high high byte notZero notAlone) (Nat.le_refl _) rest

theorem Quoted.tails (n c : Nat) (rest : Quoted more out) : Quoted (tails n c ++ more) (tails n c ++ out) := by
  induction n generalizing c more out with
  | zero => exact rest
  | succ n ih =>
    rw [Utf.tails, List.append_assoc, List.append_assoc]
    exact ih (c / 64) (.high (by omega) (by omega) (by omega) (by omega) rest)

/-- A code point becomes its quoted form. -/
theorem Quoted.point (small : c < 0x110000) (rest : Quoted more out) :
    Quoted (encodePoint true false c ++ more) ((quotePoint c).flatMap utf8Bytes ++ out) := by
  by_cases zero : c = 0
  · subst zero
    rw [utf8_quotePoint_escaped rfl (.inl (by decide))]
    have step : quoteChar .documented 0xC0 (0x80 :: more) = some (unicodeEscape 0, more) := rfl
    exact .cons step (Nat.le_succ _) rest
  · rw [encodePoint, if_neg zero]
    cases surrogate : isSurrogate c with
    | true =>
      have bounds := isSurrogate_iff.mp surrogate
      obtain ⟨most, -, bytes⟩ | ⟨-, most, -, bytes⟩ | ⟨above, most, -, bytes⟩ | ⟨above, -, bytes⟩ := utf8Bytes_cases c
      all_goals try omega
      rw [utf8_quotePoint_escaped (escapeLetter_of_le (by omega)) (.inr surrogate), bytes, List.cons_append]
      refine .cons (quoteChar_surrogate surrogate more) ?_ rest
      rw [List.length_append]
      omega
    | false =>
      have outside : ¬(0xD800 ≤ c ∧ c ≤ 0xDFFF) := fun inside => by
        rw [isSurrogate_iff.mpr inside] at surrogate
        cases surrogate
      by_cases ascii : c < 0x80
      · rw [utf8Bytes_ascii ascii]
        exact .cons (quoteChar_ascii zero ascii more) (Nat.le_refl _) rest
      · rw [quotePoint_plain (by omega) surrogate, List.flatMap_singleton]
        obtain ⟨most, -, bytes⟩ | ⟨-, most, -, bytes⟩ | ⟨above, most, -, bytes⟩ | ⟨above, -, bytes⟩ := utf8Bytes_cases c
        all_goals try omega
        · rw [bytes]
          exact .high (by omega) (by omega) (by omega) (by omega) (.tails 1 c rest)
        · rw [bytes, List.cons_append]
          refine .high (by omega) (by omega) (by omega) (fun lead => ?_) (.tails 2 c rest)
          -- `0xD000` to `0xD7FF`
          rw [isAloneSurrogate_tails]
          exact decide_eq_false (by omega)
        · rw [bytes]
          exact .high (by omega) (by omega) (by omega) (by omega) (.tails 3 c rest)

theorem quoted_encode (small : ∀ c ∈ cps, c < 0x110000) :
    Quoted (encode true false cps) ((cps.flatMap quotePoint).flatMap utf8Bytes) := by
  induction cps with
  | nil => exact .nil
  | cons c cps ih =>
    obtain ⟨first, later⟩ := List.forall_mem_cons.mp small
    rw [List.flatMap_cons, List.flatMap_append]
    exact .point first (ih later)

theorem fastText : ∀ x : Fin 0x100, isFastChar (UInt8.ofNat x.val) = true →
    caseText (UInt8.ofNat x.val) = none ∧ UInt8.ofNat x.val ≠ zeroFirst ∧
      UInt8.ofNat x.val ≠ aloneSurrogate3bFirst ∧ defaultText (UInt8.ofNat x.val) = [UInt8.ofNat x.val] := by
  decide +kernel

/-- In the fast mode the text is quoted as it is. -/
theorem quoted_fast {value : List UInt8} (fast : isFastValueToQuotedString value = true) : Quoted value value := by
  induction value with
  | nil => exact .nil
  | cons c value ih =>
    rw [isFastValueToQuotedString, List.all_cons, Bool.and_eq_true] at fast
    obtain ⟨first, later⟩ := fast
    have text := fastText ⟨c.toNat, c.toNat_lt⟩
    simp only [UInt8.ofNat_toNat] at text
    obtain ⟨cased, notZero, notSurrogate, kept⟩ := text first
    have step : quoteChar .documented c value = some ([c], value) := by
      unfold quoteChar
      simp only [cased, notZero, notSurrogate, false_and, if_false, kept]
    exact .cons step (Nat.le_refl _) (ih later)

theorem ofNat_ne_zero (positive : x ≠ 0) (byte : x < 0x100) : UInt8.ofNat x ≠ 0 := by
  intro zero
  have value := toNat_ofNat byte
  rw [zero] at value
  exact positive value.symm

theorem zero_notMem_tails (n c : Nat) : 0 ∉ tails n c := by
  induction n generalizing c with
  | zero => exact List.not_mem_nil
  | succ n ih =>
    rw [tails, List.mem_append, List.mem_singleton]
    exact not_or.mpr ⟨ih (c / 64), Ne.symm (ofNat_ne_zero (by omega) (by omega))⟩

/-- There is no zero byte in modified UTF-8. -/
theorem zero_notMem_encode (small : ∀ c ∈ cps, c < 0x110000) : 0 ∉ encode true false cps := by
  intro inside
  obtain ⟨c, member, here⟩ := List.mem_flatMap.mp inside
  have below := small c member
  by_cases zero : c = 0
  · subst zero
    exact absurd here (by decide)
  · rw [encodePoint, if_neg zero] at here
    obtain ⟨most, -, bytes⟩ | ⟨-, most, -, bytes⟩ | ⟨above, most, -, bytes⟩ | ⟨above, -, bytes⟩ := utf8Bytes_cases c
    all_goals
      rw [bytes, List.mem_cons] at here
      rcases here with first | later
      · exact ofNat_ne_zero (by omega) (by omega) first.symm
      · first
          | exact absurd later List.not_mem_nil
          | exact zero_notMem_tails _ _ later

/-- The quoted text of a string, in code points. -/
def quotedPoints (cps : List Nat) : List Nat := 0x22 :: cps.flatMap quotePoint ++ [0x22]

theorem utf8_quotedPoints (cps : List Nat) :
    (quotedPoints cps).flatMap utf8Bytes = 0x22 :: (cps.flatMap quotePoint).flatMap utf8Bytes ++ [0x22] := by
  rw [quotedPoints, List.flatMap_append, List.flatMap_cons]
  rfl

theorem valueToQuotedString_encode (small : ∀ c ∈ cps, c < 0x110000) :
    valueToQuotedString .documented (encode true false cps) = some ((quotedPoints cps).flatMap utf8Bytes) := by
  have quoted := quoted_encode small
  have whole : (encode true false cps).takeWhile (· ≠ 0) = encode true false cps := by
    refine List.takeWhile_eq_self_iff.mpr fun b member => decide_eq_true ?_
    rintro rfl
    exact zero_notMem_encode small member
  have run := quoted _ (Nat.le_refl _)
  simp only [valueToQuotedString, whole, utf8_quotedPoints]
  by_cases fast : isFastValueToQuotedString (encode true false cps) = true
  · have same := Option.some.inj ((quoted_fast fast _ (Nat.le_refl _)).symm.trans run)
    rw [if_pos fast, ← same]
  · rw [if_neg fast, run]
    rfl

/-! ## Units -/

/-- The units of a code point. -/
def utf16Units (c : Nat) : List Nat :=
  if c < 0x10000 then [c] else [0xD800 + (c - 0x10000) / 0x400, 0xDC00 + (c - 0x10000) % 0x400]

theorem utf16Units_single (small : c < 0x10000) : utf16Units c = [c] := if_pos small

theorem map_drop_of_unitAt {i u : Nat} (read : unitAt utf16 i = some u) :
    (utf16.drop i).map UInt16.toNat = u :: (utf16.drop (i + 1)).map UInt16.toNat := by
  obtain ⟨unit, found, rfl⟩ := Option.map_eq_some_iff.mp read
  obtain ⟨inside, rfl⟩ := List.getElem?_eq_some_iff.mp found
  rw [List.drop_eq_getElem_cons inside, List.map_cons]

/-- The units of the code points that are read are those of the text. -/
theorem utf16Units_readCodePoints {fuel i : Nat} (read : readCodePoints utf16 utf16.length fuel i = some cps) :
    cps.flatMap utf16Units = (utf16.drop i).map UInt16.toNat ∧ ∀ c ∈ cps, c < 0x110000 := by
  induction fuel generalizing i cps with
  | zero => cases read
  | succ fuel ih =>
    rw [readCodePoints] at read
    by_cases inside : i < utf16.length
    · rw [if_pos inside] at read
      obtain ⟨high, first, small, ⟨decode, -⟩ | ⟨low, second, -, isHigh, isLow, decode⟩⟩ :=
        decodeUTF16_spec inside (Nat.le_refl _)
      · simp only [decode, Option.bind_eq_bind, Option.bind_some, Option.bind_eq_some_iff, Option.pure_def,
          Option.some.injEq] at read
        obtain ⟨rest, later, rfl⟩ := read
        obtain ⟨units, bound⟩ := ih later
        rw [List.flatMap_cons, units, utf16Units_single small, map_drop_of_unitAt first]
        exact ⟨rfl, List.forall_mem_cons.mpr ⟨by omega, bound⟩⟩
      · simp only [decode, Option.bind_eq_bind, Option.bind_some, Option.bind_eq_some_iff, Option.pure_def,
          Option.some.injEq] at read
        obtain ⟨rest, later, rfl⟩ := read
        obtain ⟨units, bound⟩ := ih later
        have highBounds := isUTF16HighSurrogate_iff.mp isHigh
        have lowBounds := isUTF16LowSurrogate_iff.mp isLow
        have pair : utf16Units ((high - 0xD800) * 1024 + (low - 0xDC00) + 0x10000) = [high, low] := by
          rw [utf16Units, if_neg (by omega), show 0xD800 + ((high - 0xD800) * 1024 + (low - 0xDC00) + 0x10000 -
              0x10000) / 0x400 = high by omega, show 0xDC00 + ((high - 0xD800) * 1024 + (low - 0xDC00) + 0x10000 -
              0x10000) % 0x400 = low by omega]
        rw [List.flatMap_cons, units, pair, map_drop_of_unitAt first, map_drop_of_unitAt second]
        exact ⟨rfl, List.forall_mem_cons.mpr ⟨by omega, bound⟩⟩
    · rw [if_neg inside] at read
      cases read
      rw [List.drop_eq_nil_of_le (Nat.le_of_not_lt inside)]
      exact ⟨rfl, fun c no => absurd no List.not_mem_nil⟩

theorem escapeOf_lt {e : Nat} (escaped : escapeOf e = some c) : e < 0x10000 ∧ c < 0x10000 := by
  unfold escapeOf at escaped
  split at escaped
  all_goals first
    | (cases escaped; decide)
    | cases escaped

theorem hexDigit_lt {n : Nat} (hex : hexDigit c = some n) : c < 0x10000 ∧ n < 16 := by
  rw [hexDigit] at hex
  split at hex
  · cases hex
    omega
  · split at hex
    · cases hex
      omega
    · split at hex
      · cases hex
        omega
      · cases hex

theorem hexUnit_lt {a b d u : Nat} (hex : hexUnit a b c d = some u) :
    (a < 0x10000 ∧ b < 0x10000 ∧ c < 0x10000 ∧ d < 0x10000) ∧ u < 0x10000 := by
  rw [hexUnit] at hex
  simp only [Option.bind_eq_bind, Option.bind_eq_some_iff, Option.pure_def, Option.some.injEq] at hex
  obtain ⟨n1, h1, n2, h2, n3, h3, n4, h4, rfl⟩ := hex
  obtain ⟨first, m1⟩ := hexDigit_lt h1
  obtain ⟨second, m2⟩ := hexDigit_lt h2
  obtain ⟨third, m3⟩ := hexDigit_lt h3
  obtain ⟨fourth, m4⟩ := hexDigit_lt h4
  exact ⟨⟨first, second, third, fourth⟩, by omega⟩

/-- A quoted text stays one when its code points are written as units. -/
theorem isChars_utf16Units {s r : List Nat} (chars : IsChars s r) :
    IsChars (s.flatMap utf16Units) (r.flatMap utf16Units) := by
  induction chars with
  | nil => exact .nil
  | @plain c s r legal quote backslash _ ih =>
    rw [List.flatMap_cons, List.flatMap_cons, utf16Units]
    split
    · exact .plain legal quote backslash ih
    · exact .plain (by omega) (by omega) (by omega) (.plain (by omega) (by omega) (by omega) ih)
  | escape escaped _ ih =>
    obtain ⟨letter, unit⟩ := escapeOf_lt escaped
    simp only [List.flatMap_cons, utf16Units_single letter, utf16Units_single unit,
      utf16Units_single (show 0x5C < 0x10000 by decide)]
    exact .escape escaped ih
  | unicode hex _ ih =>
    obtain ⟨⟨first, second, third, fourth⟩, unit⟩ := hexUnit_lt hex
    simp only [List.flatMap_cons, utf16Units_single first, utf16Units_single second, utf16Units_single third,
      utf16Units_single fourth, utf16Units_single unit, utf16Units_single (show 0x5C < 0x10000 by decide),
      utf16Units_single (show 0x75 < 0x10000 by decide)]
    exact .unicode hex ih

/-! ## The round trip -/

/-- What `ConvertRegionMUtf8ToUtf16` does with well-formed UTF-8. -/
def ReadsUtf8 (convertRegionMUtf8ToUtf16 : List UInt8 → List Nat) : Prop :=
  ∀ cps : List Nat, (∀ c ∈ cps, c ≠ 0 ∧ IsScalarValue c) →
    convertRegionMUtf8ToUtf16 (cps.flatMap utf8Bytes) = cps.flatMap utf16Units

/-- Well-formed UTF-8 of a quoted text: between the quotes there is no control character, and no quote but behind a
    backslash. -/
structure IsQuotedText (quoted : List UInt8) (body : List Nat) : Prop where
  bytes : quoted = (0x22 :: body ++ [0x22]).flatMap utf8Bytes
  legal : ∀ c ∈ body, 0x20 ≤ c
  quotes : Skeleton body
  scalar : ∀ c ∈ body, IsScalarValue c

theorem isQuotedText_quotedPoints (small : ∀ c ∈ cps, c < 0x110000) :
    IsQuotedText ((quotedPoints cps).flatMap utf8Bytes) (cps.flatMap quotePoint) where
  bytes := rfl
  legal := legal_of_isChars (isChars_flatMap_quotePoint cps)
  quotes := skeleton_of_isChars (isChars_flatMap_quotePoint cps)
  scalar x inside := by
    obtain ⟨c, member, here⟩ := List.mem_flatMap.mp inside
    exact isScalarValue_quotePoint (small c member) x here

/-- A text in modified UTF-8, as `ConvertRegionUtf16ToUtf8` writes it. -/
structure IsModifiedUtf8 (utf16 : List UInt16) (str : List UInt8) : Prop where
  encoded : ∃ cps, codePoints utf16 0 utf16.length = some cps ∧ str = encode true false cps
  written : ∀ utf8Len, str.length ≤ utf8Len → ∃ out,
    convertRegionUtf16ToUtf8 (some utf16) (some []) utf16.length utf8Len 0 true false = some (some out, str.length) ∧
      Places out 0 str

theorem isModifiedUtf8_encode (read : codePoints utf16 0 utf16.length = some cps) :
    IsModifiedUtf8 utf16 (encode true false cps) := by
  refine ⟨⟨cps, read, rfl⟩, fun utf8Len room => ?_⟩
  by_cases none : utf8Len = 0
  · subst none
    rw [List.length_eq_zero_iff.mp (Nat.le_zero.mp room)]
    exact ⟨[], rfl, places_nil 0⟩
  · obtain ⟨cps', out, read', -, run, places⟩ := convertRegionUtf16ToUtf8_spec true false
      (show 0 + utf16.length ≤ utf16.length by omega) none
    rw [read] at read'
    cases read'
    rw [fitting_all room] at run places
    exact ⟨out, run, places⟩

/-- The quoted text of a string is read back as the string inside of an array or object, where the text goes on
    behind the closing quote. -/
theorem valueToQuotedString_roundTrip (utf : Constants) (documented : utf = .documented)
    (convertRegionMUtf8ToUtf16 : List UInt8 → List Nat) (reads : ReadsUtf8 convertRegionMUtf8ToUtf16)
    (s : List UInt16) :
    ∃ str quoted body, IsModifiedUtf8 s str ∧ valueToQuotedString utf str = some quoted ∧ IsQuotedText quoted body ∧
      ∀ mem parser rest, mem.drop parser.current = convertRegionMUtf8ToUtf16 quoted ++ rest →
        parser.current + (convertRegionMUtf8ToUtf16 quoted).length ≤ parser.range →
        ∃ parser', parseString mem true parser = .ok (s.map UInt16.toNat, parser') ∧
          parser'.current = parser.current + (convertRegionMUtf8ToUtf16 quoted).length ∧
          parser'.range = parser.range := by
  subst documented
  obtain ⟨cps, read, -⟩ := codePoints_some (show 0 + s.length ≤ s.length by omega)
  have points : readCodePoints s s.length (s.length + 1) 0 = some cps := by rwa [codePoints, Nat.zero_add] at read
  obtain ⟨units, small⟩ := utf16Units_readCodePoints points
  have text := isQuotedText_quotedPoints small
  refine ⟨_, _, _, isModifiedUtf8_encode read, valueToQuotedString_encode small, text, ?_⟩
  intro mem parser rest left inside
  have scalar : ∀ c ∈ quotedPoints cps, c ≠ 0 ∧ IsScalarValue c := by
    intro c member
    rcases List.mem_append.mp member with before | last
    · rcases List.mem_cons.mp before with rfl | here
      · exact ⟨by decide, isScalarValue_of_lt (by decide)⟩
      · have legal := text.legal c here
        exact ⟨by omega, text.scalar c here⟩
    · rw [List.mem_singleton.mp last]
      exact ⟨by decide, isScalarValue_of_lt (by decide)⟩
  have decoded : convertRegionMUtf8ToUtf16 ((quotedPoints cps).flatMap utf8Bytes) =
      0x22 :: (cps.flatMap quotePoint).flatMap utf16Units ++ [0x22] := by
    rw [reads _ scalar, quotedPoints, List.flatMap_append, List.flatMap_cons]
    rfl
  have chars := isChars_utf16Units (isChars_flatMap_quotePoint cps)
  rw [units, List.drop_zero] at chars
  rw [decoded] at left inside ⊢
  rw [List.append_assoc, List.singleton_append] at left
  simp only [List.length_append, List.length_cons, List.length_nil] at inside
  obtain ⟨parser', parsed, behind⟩ := parseString_of_isChars left chars
    (passed_of_skeleton (skeleton_of_isChars chars) fun i low high => by omega)
  exact ⟨parser', parsed, behind.position, behind.range⟩

/-- A reader of UTF-8. -/
def readUtf8 (bytes : List UInt8) : List Nat :=
  ((readUnicodeChars .documented bytes.length bytes).getD []).flatMap fun c => utf16Units c.toNat

theorem readsUtf8_readUtf8 : ReadsUtf8 readUtf8 := by
  intro cps scalar
  have bytes : cps.flatMap utf8Bytes = encode true false cps :=
    List.flatMap_congr fun c member => (if_neg (scalar c member).1).symm
  have all : kept true cps = cps := List.filter_eq_self.mpr fun c _ => rfl
  have small : ∀ c ∈ cps, c < 2 ^ 21 := fun c member => by
    have := (scalar c member).2.1
    omega
  rw [readUtf8, bytes, readUnicodeChars_encode true small (Nat.le_refl _), all, Option.getD_some, List.flatMap_map]
  rfl

/-- A zero, a quote, a lone surrogate, a line feed and a pair. -/
theorem valueToQuotedString_roundTrip_mixed :
    ∃ str quoted body, IsModifiedUtf8 [0, 0x22, 0xD800, 0x0A, 0xD83D, 0xDE00] str ∧
      valueToQuotedString .documented str = some quoted ∧ IsQuotedText quoted body ∧
      ∀ mem parser rest, mem.drop parser.current = readUtf8 quoted ++ rest →
        parser.current + (readUtf8 quoted).length ≤ parser.range →
        ∃ parser', parseString mem true parser =
            .ok ([0, 0x22, 0xD800, 0x0A, 0xD83D, 0xDE00].map UInt16.toNat, parser') ∧
          parser'.current = parser.current + (readUtf8 quoted).length ∧ parser'.range = parser.range :=
  valueToQuotedString_roundTrip .documented rfl readUtf8 readsUtf8_readUtf8 [0, 0x22, 0xD800, 0x0A, 0xD83D, 0xDE00]

end Json

end ArkRuntime
