import ArkRuntime.RegExp.ExecutorModel

/-!
# Reading a pattern

The functions of `RegExpParser` (`ecmascript/regexp/regexp_parser.cpp`) that read characters and do not
emit code: digits, escapes, classes and group names. Their state is the `Cursor`, that is `pc_` as an
index into the pattern and `c0_`. The pattern is the bytes from `base_` to `end_`; the byte behind it is
the terminating zero of the C string, and reading further is a fault. `ParseError` ends the parse: once
the error flag is set, nothing that is emitted is used.

What the ICU library decides is a parameter. Loops have fuel, and all that is proved holds for every
fuel.
-/

namespace ArkRuntime

namespace RegExp

/-- `KEY_EOF`. -/
def keyEof : Nat := 2 ^ 32 - 1

/-- `CLASS_RANGE_BASE`. -/
def classRangeBase : Nat := 0x40000000

/-- `INT32_MAX`, also the upper bound of an open quantifier. -/
def int32Max : Nat := 2 ^ 31 - 1

/-- The functions of the ICU library that the parser calls. -/
structure Icu extends CaseMapping where
  /-- `u_isIDStart`. -/
  isIDStart : Nat → Bool
  /-- `u_isIDPart`. -/
  isIDPart : Nat → Bool
  /-- `U8_NEXT`: the character, as a `uint32_t`, and the number of bytes it takes. -/
  u8Next : List UInt8 → Nat × Nat
  /-- The characters of `UnicodeSet(c, c)` after `closeOver(USET_CASE_INSENSITIVE)`. -/
  closeOver : Nat → List Nat
  /-- `ParseUnicodePropertyClassRange`: the ranges it inserts for a property name and a value name, with
      its `negate` and the flag for the case. -/
  property : List UInt8 → List UInt8 → Bool → Bool → Option (List CharRange)

inductive ParseFault where
  /-- `ParseError`. -/
  | error (message : String)
  /-- An access outside of an array. -/
  | outside
  | unfinished
deriving DecidableEq, Repr

/-- What does not change while a pattern is parsed. -/
structure Pattern where
  icu : Icu
  source : List UInt8
  flags : Nat

/-- `pc_` and `c0_`. -/
structure Cursor where
  pc : Nat
  c0 : Nat
deriving DecidableEq, Repr

abbrev Lex (α : Type) := StateT Cursor (Except ParseFault) α

/-- An `if` without an `else`. -/
def onlyIf {σ : Type} (c : Prop) [Decidable c] (m : StateT σ (Except ParseFault) Unit) :
    StateT σ (Except ParseFault) Unit := if c then m else pure ()

def parseError {α : Type} (message : String) : Lex α := fun _ => .error (.error message)

def outside {α : Type} : Lex α := fun _ => .error .outside

def unfinished {α : Type} : Lex α := fun _ => .error .unfinished

def c0 : Lex Nat := fun cur => .ok (cur.c0, cur)

def getPc : Lex Nat := fun cur => .ok (cur.pc, cur)

def setPc (pc : Nat) : Lex Unit := fun cur => .ok ((), { cur with pc := pc })

def setC0 (c : Nat) : Lex Unit := fun cur => .ok ((), { cur with c0 := c })

def isDigit (c : Nat) : Bool := '0'.toNat ≤ c && c ≤ '9'.toNat
def isOctal (c : Nat) : Bool := '0'.toNat ≤ c && c ≤ '7'.toNat

/-- `HexValue`; `none` is -1. -/
def hexValue (c : Nat) : Option Nat :=
  if isDigit c then some (c - '0'.toNat)
  else if 'a'.toNat ≤ c ∧ c ≤ 'f'.toNat then some (c - 'a'.toNat + 10)
  else if 'A'.toNat ≤ c ∧ c ≤ 'F'.toNat then some (c - 'A'.toNat + 10)
  else none

namespace Pattern

variable (p : Pattern)

def isIgnoreCase : Bool := p.flags.testBit flagIgnoreCase
def isDotAll : Bool := p.flags.testBit flagDotAll
def isUtf16 : Bool := p.flags.testBit flagUtf16

/-- The byte at an index. -/
def byteAt (i : Nat) : Option Nat :=
  if i = p.source.length then some 0 else p.source[i]?.map UInt8.toNat

def readAt (i : Nat) : Lex Nat :=
  match p.byteAt i with
  | some c => pure c
  | none => outside

/-- `*pc_`. -/
def peek : Lex Nat := do p.readAt (← getPc)

/-- `Advance()`. -/
def advance : Lex Unit := fun cur =>
  match p.source[cur.pc]? with
  | some c => .ok ((), ⟨cur.pc + 1, c.toNat⟩)
  | none => .ok ((), { cur with c0 := keyEof })

/-- `Advance(offset)`. -/
def advanceBy (offset : Nat) : Lex Unit := do
  setPc ((← getPc) + (offset - 1))
  p.advance

/-- `Prev()`. -/
def prev : Lex Unit := do
  let pc ← getPc
  setC0 (← p.readAt pc)
  setPc (pc - 1)

/-- `pc_ = start; Advance()`. -/
def backTo (start : Nat) : Lex Unit := do
  setPc start
  p.advance

/-! ## Numbers and escapes -/

/-- The loop of `ParseDecimalDigits`. -/
def decimalDigits : Nat → Nat → Bool → Lex Nat
  | 0, _, _ => unfinished
  | fuel + 1, result, overflow => do
      let c ← c0
      if isDigit c then
        let d := c - '0'.toNat
        p.advance
        if overflow || result > (int32Max - d) / 10 then decimalDigits fuel result true
        else decimalDigits fuel (result * 10 + d) false
      else return if overflow then int32Max else result

/-- `ParseDecimalDigits`. -/
def parseDecimalDigits (fuel : Nat) : Lex Nat := p.decimalDigits fuel 0 false

/-- `ParseOctalLiteral`. -/
def parseOctalLiteral : Lex Nat := do
  let value := (← c0) - '0'.toNat
  p.advance
  let c ← c0
  if isOctal c then
    let value := value * 8 + (c - '0'.toNat)
    p.advance
    let c ← c0
    if value < 32 && isOctal c then
      p.advance
      return value * 8 + (c - '0'.toNat)
    else return value
  else return value

/-- The loop of `ParseUnlimitedLengthHexNumber`. -/
def hexDigits (maxValue : Nat) : Nat → Nat → Lex (Option Nat)
  | 0, _ => unfinished
  | fuel + 1, x => do
      match hexValue (← c0) with
      | none => return some x
      | some d =>
          let x := x * 16 + d
          if x > maxValue then return none
          else
            p.advance
            hexDigits maxValue fuel x

/-- `ParseUnlimitedLengthHexNumber`. -/
def parseUnlimitedLengthHexNumber (fuel maxValue : Nat) : Lex (Option Nat) := do
  match hexValue (← c0) with
  | none => return none
  | some _ => p.hexDigits maxValue fuel 0

/-- The loop of `ParseHexEscape`, which goes back to `start` at a character that is no digit. -/
def hexEscape (start : Nat) : Nat → Nat → Lex (Option Nat)
  | 0, val => return some val
  | length + 1, val => do
      match hexValue (← c0) with
      | none =>
          p.backTo start
          return none
      | some d =>
          p.advance
          hexEscape start length (val * 16 + d)

/-- `ParseHexEscape`. -/
def parseHexEscape (length : Nat) : Lex (Option Nat) := do
  p.hexEscape ((← getPc) - 1) length 0

/-- The second half of a surrogate pair in `ParseUnicodeEscape`. -/
def parseTrail (value : Nat) : Lex (Option Nat) := do
  let start := (← getPc) - 1
  if (← p.peek) = 'u'.toNat then
    p.advanceBy 2
    match ← p.parseHexEscape 4 with
    | some trail =>
        if isTrail trail then return some (supplementary value trail)
        else
          p.backTo start
          return some value
    | none =>
        p.backTo start
        return some value
  else
    p.backTo start
    return some value

/-- `ParseUnicodeEscape`. -/
def parseUnicodeEscape (fuel : Nat) : Lex (Option Nat) := do
  if (← c0) = '{'.toNat && p.isUtf16 then
    let start := (← getPc) - 1
    p.advance
    match ← p.parseUnlimitedLengthHexNumber fuel 0x10FFFF with
    | some value =>
        if (← c0) = '}'.toNat then
          p.advance
          return some value
        else
          p.backTo start
          return none
    | none =>
        p.backTo start
        return none
  else
    match ← p.parseHexEscape 4 with
    | none => return none
    | some value =>
        if p.isUtf16 && isLead value && (← c0) = '\\'.toNat then p.parseTrail value
        else return some value

/-- The loop of `StringHelper::FromUtf8`. -/
def fromUtf8 : Nat → Nat → Nat → Lex (Option (Nat × Nat))
  | 0, c, i => return some (c, i)
  | l + 1, c, i => do
      let b ← p.readAt i
      if b < 0x80 ∨ 0xc0 ≤ b then return none else fromUtf8 l (c * 2 ^ 6 + (b &&& 0x3f)) (i + 1)

/-- `StringHelper::UnicodeFromUtf8` with room for six bytes: the character and the index behind it. -/
def unicodeFromUtf8 (i : Nat) : Lex (Option (Nat × Nat)) := do
  let c ← p.readAt i
  let sequence (l mask least : Nat) : Lex (Option (Nat × Nat)) := do
    match ← p.fromUtf8 l (c &&& mask) (i + 1) with
    | some (c, i) => return if c < least then none else some (c, i)
    | none => return none
  if c < 0x80 then return some (c, i + 1)
  else if 0xc0 ≤ c ∧ c ≤ 0xdf then sequence 1 0x1f 0x80
  else if 0xe0 ≤ c ∧ c ≤ 0xef then sequence 2 0xf 0x800
  else if 0xf0 ≤ c ∧ c ≤ 0xf7 then sequence 3 0x7 0x10000
  else if 0xf8 ≤ c ∧ c ≤ 0xfb then sequence 4 0x3 0x200000
  else if c = 0xfc ∨ c = 0xfd then sequence 5 0x1 0x4000000
  else return none

/-- The characters that the last case of `IdentityEscape` names. -/
def syntaxCharacters : List Nat := "$()*+./?[\\]^{|}".toList.map Char.toNat

/-- The last case of `ParseCharacterEscape`; `none` is -1. -/
def parseSourceCharacter : Lex (Option Nat) := do
  if p.isUtf16 then parseError "Invalid unicode escape"
  else
    let result ← c0
    if result < 128 then
      p.advance
      return some result
    else
      p.prev
      let pc ← getPc
      match ← p.unicodeFromUtf8 pc with
      | some (result, i) =>
          p.advanceBy (i - pc + 1)
          return some result
      | none =>
          p.advanceBy 1
          return none

def isLetter (c : Nat) : Bool :=
  ('A'.toNat ≤ c && c ≤ 'Z'.toNat) || ('a'.toNat ≤ c && c ≤ 'z'.toNat)

/-- The case `c` of `ParseCharacterEscape`. The character that is no letter is read again. -/
def parseControlLetter : Lex Nat := do
  p.advance
  let c ← c0
  if isLetter c then
    p.advance
    return c &&& 0x1f
  else if !p.isUtf16 then
    setPc ((← getPc) - 1)
    return '\\'.toNat
  else parseError "Invalid control letter"

/-- `ParseCharacterEscape`; `none` is -1. -/
def parseCharacterEscape (fuel : Nat) : Lex (Option Nat) := do
  let c ← c0
  let control (result : Nat) : Lex (Option Nat) := do
    p.advance
    return some result
  if c = 'f'.toNat then control 0x0c
  else if c = 'n'.toNat then control 0x0a
  else if c = 'r'.toNat then control 0x0d
  else if c = 't'.toNat then control 0x09
  else if c = 'v'.toNat then control 0x0b
  else if c = 'c'.toNat then return some (← p.parseControlLetter)
  else if isOctal c then
    if c = '0'.toNat && p.isUtf16 && !isDigit (← p.peek) then control 0
    else if p.isUtf16 then parseError "Invalid class escape"
    else return some (← p.parseOctalLiteral)
  else if c = 'x'.toNat then
    p.advance
    match ← p.parseHexEscape 2 with
    | some result => return some result
    | none => if p.isUtf16 then parseError "Invalid class escape" else return some 'x'.toNat
  else if c = 'u'.toNat then
    p.advance
    match ← p.parseUnicodeEscape fuel with
    | some result => return some result
    | none => if p.isUtf16 then parseError "Invalid unicode escape" else return some 'u'.toNat
  else if c ∈ syntaxCharacters then control c
  else p.parseSourceCharacter

/-! ## Classes -/

/-- `g_rangeD`. -/
def rangeD : RangeSet := [⟨0x30, 0x39⟩]

/-- `g_rangeS`. -/
def rangeS : RangeSet :=
  [⟨0x09, 0x0D⟩, ⟨0x20, 0x20⟩, ⟨0xA0, 0xA0⟩, ⟨0x1680, 0x1680⟩, ⟨0x2000, 0x200A⟩, ⟨0x2028, 0x2029⟩,
    ⟨0x202F, 0x202F⟩, ⟨0x205F, 0x205F⟩, ⟨0x3000, 0x3000⟩, ⟨0xFEFF, 0xFEFF⟩]

/-- `g_rangeW`. -/
def rangeW : RangeSet := [⟨0x30, 0x39⟩, ⟨0x41, 0x5A⟩, ⟨0x5F, 0x5F⟩, ⟨0x61, 0x7A⟩]

/-- `IsUnicodePropertyValueCharacter`. -/
def isUnicodePropertyValueCharacter (c : Nat) : Bool := isLetter c || isDigit c || c == '_'.toNat

/-- The loops of `GetUnicodePropertyName` and `GetUnicodePropertyValueName`: characters up to one of
    `stops`. -/
def propertyCharacters (stops : List Nat) : Nat → List UInt8 → Lex (Option (List UInt8))
  | 0, _ => unfinished
  | fuel + 1, name => do
      let c ← c0
      if c ∈ stops then return some name
      else if isUnicodePropertyValueCharacter c then
        p.advance
        propertyCharacters stops fuel (name ++ [UInt8.ofNat c])
      else return none

/-- `ParseUnicodePropertyValueCharacters`: the names of the property and of its value. -/
def parseUnicodePropertyValueCharacters (fuel : Nat) : Lex (Option (List UInt8 × List UInt8)) := do
  p.advance
  if (← c0) = '{'.toNat then
    p.advance
    match ← p.propertyCharacters ['}'.toNat, '='.toNat] fuel [] with
    | none => return none
    | some propertyName =>
        if (← c0) = '='.toNat then
          p.advance
          match ← p.propertyCharacters ['}'.toNat] fuel [] with
          | none => return none
          | some valueName =>
              p.advance
              return some (propertyName, valueName)
        else
          p.advance
          return some (propertyName, [])
  else return none

/-- The pattern as a `CString`: its bytes up to a zero. -/
def expression : String :=
  String.ofList ((p.source.takeWhile (· ≠ 0)).map fun b => Char.ofNat b.toNat)

/-- The message of `ParseClassEscape` for a property that is not known. -/
def propertyMessage : String := "Invalid regular expression :" ++ p.expression

/-- The cases `P` and `p` of `ParseClassEscape`. -/
def parseProperty (fuel : Nat) : Lex RangeSet := do
  let negate := (← c0) == 'P'.toNat
  match ← p.parseUnicodePropertyValueCharacters fuel with
  | none => parseError p.propertyMessage
  | some (propertyName, valueName) =>
      match p.icu.property propertyName valueName negate p.isIgnoreCase with
      | none => parseError p.propertyMessage
      | some ranges => return ranges.foldl (fun atom r => atom.insert r.first r.second) []

/-- A class escape with its complement. -/
def classEscape (ranges : RangeSet) (invert : Bool) : RangeSet :=
  let atom := RangeSet.insertSet [] ranges
  if invert then atom.invert p.isUtf16 else atom

/-- `ParseClassEscape`: the value, `none` for -1, and the set of the atom. -/
def parseClassEscape (fuel : Nat) : Lex (Option Nat × RangeSet) := do
  let c ← c0
  let single (c : Nat) : Lex (Option Nat × RangeSet) := do
    p.advance
    return (some c, RangeSet.insert [] c c)
  let escape (ranges : RangeSet) (invert : Bool) : Lex (Option Nat × RangeSet) := do
    p.advance
    return (some classRangeBase, p.classEscape ranges invert)
  if c = 'b'.toNat then single 8
  else if c = '-'.toNat then single '-'.toNat
  else if c = 'd'.toNat then escape rangeD false
  else if c = 'D'.toNat then escape rangeD true
  else if c = 's'.toNat then escape rangeS false
  else if c = 'S'.toNat then escape rangeS true
  else if c = 'w'.toNat then escape rangeW false
  else if c = 'W'.toNat then escape rangeW true
  else if c = 'P'.toNat ∨ c = 'p'.toNat then return (some classRangeBase, ← p.parseProperty fuel)
  else
    match ← p.parseCharacterEscape fuel with
    | some result =>
        let value := if p.isIgnoreCase then canonicalize p.icu.toCaseMapping result p.isUtf16 else result
        return (some result, RangeSet.insert [] value value)
    | none =>
        -- -1 is below 128 and is no letter
        return (none, RangeSet.insert [] keyEof keyEof)

/-- `ConvertUtf8ToUtf16Pair`, with surrogates combined: the character and the number of bytes. -/
def convertUtf8ToUtf16Pair (i : Nat) : Lex (Nat × Nat) := do
  let d0 ← p.readAt i
  if d0 &&& 0x80 = 0 then return (d0, 1)
  else
    let d1 ← p.readAt (i + 1)
    if d0 &&& 0x20 = 0 then return ((d0 &&& 0x1f) * 2 ^ 6 + (d1 &&& 0x3f), 2)
    else
      let d2 ← p.readAt (i + 2)
      if d0 &&& 0x10 = 0 then
        return ((d0 &&& 0xf) * 2 ^ 12 + (d1 &&& 0x3f) * 2 ^ 6 + (d2 &&& 0x3f), 3)
      else
        let d3 ← p.readAt (i + 3)
        return ((d0 &&& 0xf) * 2 ^ 18 + (d1 &&& 0x3f) * 2 ^ 12 + (d2 &&& 0x3f) * 2 ^ 6 + (d3 &&& 0x3f), 4)

/-- `ParseClassAtom`: the value, `none` for `UINT32_MAX`, and the set of the atom. -/
def parseClassAtom (fuel : Nat) : Lex (Option Nat × RangeSet) := do
  let c ← c0
  if c = '\\'.toNat then
    p.advance
    p.parseClassEscape fuel
  else if c = keyEof then return (none, [])
  else if c = 0 ∧ p.source.length ≤ (← getPc) + 1 then return (none, [])
  else if c > 127 then
    let pc := (← getPc) - 1
    setPc pc
    let (value, size) ← p.convertUtf8ToUtf16Pair pc
    p.advanceBy (size + 1)
    return (some value, RangeSet.insert [] value value)
  else
    p.advance
    return (some c, RangeSet.insert [] c c)

/-- `ProcessIntersection`. -/
def processIntersection (result : RangeSet) : RangeSet :=
  let cr := RangeSet.insert (RangeSet.insert [] 'a'.toNat ('z'.toNat + 1)) 'A'.toNat ('Z'.toNat + 1)
  let (result, cr1) := result.inter [] cr
  result.insertSet cr1

/-- The loop of `ParseClassRanges`. -/
def classRanges (fuel₀ : Nat) : Nat → RangeSet → Lex RangeSet
  | 0, _ => unfinished
  | fuel + 1, result => do
      if (← c0) = ']'.toNat then
        p.advance
        return result
      else
        match ← p.parseClassAtom fuel₀ with
        | (none, _) => parseError "invalid class range"
        | (some c1, s1) =>
            let next ← p.peek
            if (← c0) = '-'.toNat ∧ next ≠ ']'.toNat then
              if c1 = classRangeBase then
                if p.isUtf16 then parseError "invalid class range"
                else classRanges fuel₀ fuel (result.insertSet s1)
              else
                p.advance
                match ← p.parseClassAtom fuel₀ with
                | (none, _) => parseError "invalid class range"
                | (some c2, s2) =>
                    if c2 = classRangeBase then
                      if p.isUtf16 then parseError "invalid class range"
                      else classRanges fuel₀ fuel (result.insertSet s2)
                    else if c1 < 127 ∧ c1 > c2 then parseError "invalid class range"
                    else
                      let result := result.insert c1 c2
                      classRanges fuel₀ fuel
                        (if p.isIgnoreCase && isLetter c2 then processIntersection result else result)
            else
              let result := result.insertSet s1
              if p.isIgnoreCase && isLetter c1 then
                let other := if 'a'.toNat ≤ c1 then c1 - 'a'.toNat + 'A'.toNat
                  else c1 - 'A'.toNat + 'a'.toNat
                classRanges fuel₀ fuel (result.insertSet (RangeSet.insert [] other other))
              else classRanges fuel₀ fuel result

/-- `ParseClassRanges`. -/
def parseClassRanges (fuel : Nat) : Lex RangeSet := p.classRanges fuel fuel []

/-! ## Groups -/

/-- `IsIdentFirst`, with the bits of `ID_START_TABLE_ASCII`. -/
def isIdentFirst (c : Nat) : Bool :=
  if c < 128 then
    ([0x00000000, 0x00000010, 0x87FFFFFE, 0x07FFFFFE].getD (c / 32) 0).testBit (c % 32)
  else p.icu.isIDStart c

/-- The loop of `ParseGroupSpecifier` from the index `i` on. A name of more than 127 bytes leaves its
    buffer. The result is the name, up to a zero byte, and the index behind the `>`. -/
def groupSpecifier (fuel₀ : Nat) : Nat → Nat → List UInt8 → Lex (Option (List UInt8 × Nat))
  | 0, _, _ => unfinished
  | fuel + 1, i, name => do
      let c := if i < p.source.length then (p.source.getD i 0).toNat else keyEof
      let store (c i : Nat) : Lex (Option (List UInt8 × Nat)) := do
        if if name.isEmpty then p.isIdentFirst c else p.icu.isIDPart c then
          if 128 ≤ name.length then outside
          else groupSpecifier fuel₀ fuel i (name ++ [UInt8.ofNat c])
        else return none
      if c = '\\'.toNat then
        if (← p.readAt (i + 1)) = 'u'.toNat then
          match ← p.parseUnicodeEscape fuel₀ with
          | some c => store c (i + 1)
          | none => return none
        else return none
      else if c = '>'.toNat then
        if name.length < 128 then return some (name.takeWhile (· ≠ 0), i + 1) else outside
      else if c > 128 ∧ c ≠ keyEof then
        match ← p.unicodeFromUtf8 i with
        | some (c, i) => store c i
        | none => return none
      else if c ≠ keyEof then store c (i + 1)
      else return none

/-- `ParseGroupSpecifier`. -/
def parseGroupSpecifier (fuel i : Nat) : Lex (Option (List UInt8 × Nat)) :=
  p.groupSpecifier fuel fuel i []

/-- The loop over a class in `ParseCaptureCount`: the index of its `]`, or where it leaves the pattern. -/
def skipClass : Nat → Nat → Lex Nat
  | 0, _ => unfinished
  | fuel + 1, i =>
      if i + 1 < p.source.length ∧ (p.source.getD i 0).toNat ≠ ']'.toNat then
        skipClass fuel (if (p.source.getD i 0).toNat = '\\'.toNat then i + 2 else i + 1)
      else return i

/-- The loop of `ParseCaptureCount` from the index `i` on. -/
def captureCountFrom (fuel₀ : Nat) (groupName : Option (List UInt8)) : Nat → Nat → Nat → Lex Nat
  | 0, _, _ => unfinished
  | fuel + 1, i, captureIndex => do
      if i + 1 < p.source.length then
        let c := (p.source.getD i 0).toNat
        if c = '('.toNat then
          if (p.source.getD (i + 1) 0).toNat = '?'.toNat then
            if (← p.readAt (i + 2)) = '<'.toNat then
              let c3 ← p.readAt (i + 3)
              if c3 ≠ '!'.toNat ∧ c3 ≠ '='.toNat then
                match groupName with
                | none => captureCountFrom fuel₀ groupName fuel (i + 4) (captureIndex + 1)
                | some wanted =>
                    match ← p.parseGroupSpecifier fuel₀ (i + 3) with
                    | some (name, i) =>
                        if name = wanted then return captureIndex
                        else captureCountFrom fuel₀ groupName fuel (i + 1) (captureIndex + 1)
                    | none => captureCountFrom fuel₀ groupName fuel (i + 4) (captureIndex + 1)
              else captureCountFrom fuel₀ groupName fuel (i + 1) captureIndex
            else captureCountFrom fuel₀ groupName fuel (i + 1) captureIndex
          else captureCountFrom fuel₀ groupName fuel (i + 1) (captureIndex + 1)
        else if c = '\\'.toNat then captureCountFrom fuel₀ groupName fuel (i + 2) captureIndex
        else if c = '['.toNat then
          let i ← p.skipClass fuel₀ i
          captureCountFrom fuel₀ groupName fuel (i + 1) captureIndex
        else captureCountFrom fuel₀ groupName fuel (i + 1) captureIndex
      else return captureIndex

/-- `ParseCaptureCount`. -/
def parseCaptureCount (fuel : Nat) (groupName : Option (List UInt8)) : Lex Nat :=
  p.captureCountFrom fuel groupName fuel 0 1

end Pattern

end RegExp

end ArkRuntime
