import Mathlib.Algebra.Order.Ring.Int

/-!
# `utf_helper`

The conversions of `ecmascript/base/utf_helper.cpp` between UTF-16 and UTF-8. Code units and code points are
natural numbers, bytes are `UInt8`. A read outside of an array is a fault. An output buffer is the list of the
writes made through its pointer, each an index and a byte, in their order; what an index of it holds is the last
write there. A null pointer is `none`.

The surrogate bounds and the masks of the namespace `utf` are a parameter: they are declared in
`libpandabase/utils/utf.h`.
-/

namespace ArkRuntime

namespace Utf

/-- The first high surrogate, `DECODE_LEAD_LOW`. -/
def decodeLeadLow : Nat := 0xD800
/-- The last high surrogate, `DECODE_LEAD_HIGH`. -/
def decodeLeadHigh : Nat := 0xDBFF
/-- The first low surrogate, `DECODE_TRAIL_LOW`. -/
def decodeTrailLow : Nat := 0xDC00
/-- The last low surrogate, `DECODE_TRAIL_HIGH`. -/
def decodeTrailHigh : Nat := 0xDFFF
/-- The first code point that takes two units, `DECODE_SECOND_FACTOR`. -/
def decodeSecondFactor : Nat := 0x10000
/-- The bits of a code point in a continuation byte, `UTF8_OFFSET`. -/
def utf8Offset : Nat := 6
/-- The bits of a code point in a low surrogate, `UTF16_OFFSET`. -/
def utf16Offset : Nat := 10
/-- The bits that all surrogates share, `SURROGATE_MASK`. -/
def surrogateMask : Nat := 0xF800

/-- The masks `BIT_MASK_1` to `BIT_MASK_5` of the leading bits of a byte. -/
def bitMask1 : Nat := 0x80
def bitMask2 : Nat := 0xC0
def bitMask3 : Nat := 0xE0
def bitMask4 : Nat := 0xF0
def bitMask5 : Nat := 0xF8

/-- The last code point of one byte, `UTF8_1B_MAX`. -/
def utf8OneMax : Nat := 0x7f
/-- The last code point of two bytes, `UTF8_2B_MAX`. -/
def utf8TwoMax : Nat := 0x7ff
/-- The last code point of three bytes, `UTF8_3B_MAX`. -/
def utf8ThreeMax : Nat := 0xffff
/-- A zero in modified UTF-8, `UTF8_2B_FIRST` and `UTF8_2B_SECOND`. -/
def utf8TwoFirst : UInt8 := 0xc0
def utf8TwoSecond : UInt8 := 0x80

/-- `byteMask` and `byteMark` make a continuation byte of six bits. -/
def byteMask : Nat := 0xbf
def byteMark : Nat := 0x80

/-- The leading bits of a first byte, by the number of bytes: `firstByteMark`. -/
def firstByteMark : List Nat := [0x00, 0x00, 0xC0, 0xE0, 0xF0, 0xF8, 0xFC]

/-- The constants of the namespace `utf`. -/
structure Constants where
  hiSurrogateMin : Nat
  hiSurrogateMax : Nat
  loSurrogateMin : Nat
  loSurrogateMax : Nat
  mask4Bit : Nat
  mask5Bit : Nat
  mask6Bit : Nat
  dataWidth : Nat
deriving DecidableEq

/-- What the names of the constants say. -/
def Constants.documented : Constants where
  hiSurrogateMin := 0xD800
  hiSurrogateMax := 0xDBFF
  loSurrogateMin := 0xDC00
  loSurrogateMax := 0xDFFF
  mask4Bit := 0x0f
  mask5Bit := 0x1f
  mask6Bit := 0x3f
  dataWidth := 6

/-- `IsUTF16HighSurrogate`. -/
def isUTF16HighSurrogate (ch : Nat) : Bool := decodeLeadLow ≤ ch && ch ≤ decodeLeadHigh

/-- `IsUTF16LowSurrogate`. -/
def isUTF16LowSurrogate (ch : Nat) : Bool := decodeTrailLow ≤ ch && ch ≤ decodeTrailHigh

theorem isUTF16HighSurrogate_iff {ch : Nat} :
    isUTF16HighSurrogate ch = true ↔ 0xD800 ≤ ch ∧ ch ≤ 0xDBFF := by
  rw [isUTF16HighSurrogate, Bool.and_eq_true, decide_eq_true_eq, decide_eq_true_eq]
  rfl

theorem isUTF16LowSurrogate_iff {ch : Nat} :
    isUTF16LowSurrogate ch = true ↔ 0xDC00 ≤ ch ∧ ch ≤ 0xDFFF := by
  rw [isUTF16LowSurrogate, Bool.and_eq_true, decide_eq_true_eq, decide_eq_true_eq]
  rfl

/-- A read of the UTF-16 array. -/
def unitAt (utf16 : List UInt16) (index : Nat) : Option Nat := utf16[index]?.map UInt16.toNat

/-- `DecodeUTF16`: the code point and the index of its last unit. -/
def decodeUTF16 (utf16 : List UInt16) (len index : Nat) : Option (Nat × Nat) := do
  let high ← unitAt utf16 index
  if high &&& surrogateMask ≠ decodeLeadLow ∨ !isUTF16HighSurrogate high ∨ index = len - 1 then
    return (high, index)
  else
    let low ← unitAt utf16 (index + 1)
    if !isUTF16LowSurrogate low then return (high, index)
    else
      return (((high - decodeLeadLow) <<< utf16Offset) + (low - decodeTrailLow) + decodeSecondFactor, index + 1)

/-- `UTF8Length`. -/
def utf8Length (codepoint : Nat) : Nat :=
  if codepoint ≤ utf8OneMax then 1
  else if codepoint ≤ utf8TwoMax then 2
  else if codepoint ≤ utf8ThreeMax then 3
  else 4

/-! ## Writing -/

/-- An output buffer: the writes to it, oldest first. -/
abbrev Buffer := List (Nat × UInt8)

/-- What an index holds. -/
def Buffer.get (out : Buffer) (k : Nat) : Option UInt8 := out.reverse.lookup k

/-- The loop of `EncodeUTF8` from `j` down: what is left of the code point, and the buffer. -/
def encodeRest (index : Nat) : Nat → Nat → Buffer → Nat × Buffer
  | 0, codepoint, utf8 => (codepoint, utf8)
  | j + 1, codepoint, utf8 =>
      let cont := (codepoint ||| byteMark) &&& byteMask
      encodeRest index j (codepoint >>> utf8Offset) (utf8 ++ [(index + (j + 1), UInt8.ofNat cont)])

/-- `EncodeUTF8`: the buffer and the number of bytes. -/
def encodeUTF8 (codepoint : Nat) (utf8 : Buffer) (len index : Nat) : Buffer × Nat :=
  let size := utf8Length codepoint
  if len < index + size then (utf8, 0)
  else
    let (codepoint, utf8) := encodeRest index (size - 1) codepoint utf8
    (utf8 ++ [(index, UInt8.ofNat (codepoint ||| firstByteMark.getD size 0))], size)

/-- The body of the loop of `ConvertRegionUtf16ToUtf8`, behind `DecodeUTF16`: `utf8Out` and `utf8Pos`. -/
def storeCodePoint (utf8Len : Nat) (modify isWriteBuffer : Bool) : Buffer × Nat → Nat → Buffer × Nat
  | (utf8Out, utf8Pos), codepoint =>
      if codepoint = 0 then
        if isWriteBuffer then (utf8Out ++ [(utf8Pos, 0x00)], utf8Pos + 1)
        else if modify then
          (utf8Out ++ [(utf8Pos, utf8TwoFirst), (utf8Pos + 1, utf8TwoSecond)], utf8Pos + 2)
        else (utf8Out, utf8Pos)
      else
        let (utf8Out, size) := encodeUTF8 codepoint utf8Out utf8Len utf8Pos
        (utf8Out, utf8Pos + size)

/-- The loop of `ConvertRegionUtf16ToUtf8` from the index `i` on. -/
def convertRegion (utf16In : List UInt16) (stop utf8Len : Nat) (modify isWriteBuffer : Bool) :
    Nat → Nat → Buffer × Nat → Option (Buffer × Nat)
  | 0, _, _ => none
  | fuel + 1, i, state =>
      if i < stop then do
        let (codepoint, i) ← decodeUTF16 utf16In stop i
        convertRegion utf16In stop utf8Len modify isWriteBuffer fuel (i + 1)
          (storeCodePoint utf8Len modify isWriteBuffer state codepoint)
      else some state

/-- `ConvertRegionUtf16ToUtf8`: the buffer and the number returned. -/
def convertRegionUtf16ToUtf8 (utf16In : Option (List UInt16)) (utf8Out : Option Buffer)
    (utf16Len utf8Len start : Nat) (modify isWriteBuffer : Bool) : Option (Option Buffer × Nat) :=
  match utf16In, utf8Out with
  | some utf16, some out =>
      if utf8Len = 0 then some (utf8Out, 0)
      else
        (convertRegion utf16 (start + utf16Len) utf8Len modify isWriteBuffer (utf16Len + 1) start (out, 0)).map
          fun (out, utf8Pos) => (some out, utf8Pos)
  | _, _ => some (utf8Out, 0)

/-! ## `Utf16ToUtf8Size` -/

/-- The loop of `Utf16ToUtf8Size` from the index `i` on. -/
def addSizes (utf : Constants) (utf16 : List UInt16) (length : Nat) (modify : Bool) :
    Nat → Nat → Nat → Option Nat
  | 0, _, _ => none
  | fuel + 1, i, res =>
      if i < length then do
        let unit ← unitAt utf16 i
        if unit = 0 then
          addSizes utf utf16 length modify fuel (i + 1) (if modify then res + 2 else res)
        else if unit ≤ utf8OneMax then addSizes utf utf16 length modify fuel (i + 1) (res + 1)
        else if unit ≤ utf8TwoMax then addSizes utf utf16 length modify fuel (i + 1) (res + 2)
        else if unit < utf.hiSurrogateMin ∨ utf.hiSurrogateMax < unit then
          addSizes utf utf16 length modify fuel (i + 1) (res + 3)
        else if i < length - 1 then
          let next ← unitAt utf16 (i + 1)
          if utf.loSurrogateMin ≤ next ∧ next ≤ utf.loSurrogateMax then
            addSizes utf utf16 length modify fuel (i + 2) (res + 4)
          else addSizes utf utf16 length modify fuel (i + 1) (res + 3)
        else addSizes utf utf16 length modify fuel (i + 1) (res + 3)
      else some res

/-- `Utf16ToUtf8Size`, with the zero byte. -/
def utf16ToUtf8Size (utf : Constants) (utf16 : List UInt16) (length : Nat) (modify : Bool) : Option Nat := do
  let lone ← if length = 1 then
      (unitAt utf16 0).map fun unit => utf.hiSurrogateMin ≤ unit && unit ≤ utf.loSurrogateMax
    else some false
  if lone then return 1 + 3 else addSizes utf utf16 length modify (length + 1) 0 1

/-! ## `ConvertUtf8ToUnicodeChar` -/

/-- `INVALID_UTF8`. -/
def invalidUtf8 : Int := -1

/-- `(d & BIT_MASK_2) == BIT_MASK_1`. -/
def isContinuation (d : Nat) : Bool := d &&& bitMask2 == bitMask1

/-- `ConvertUtf8ToUnicodeChar`: the code point and the number of bytes. -/
def convertUtf8ToUnicodeChar (utf : Constants) (utf8 : List UInt8) (maxLen : Nat) : Option (Int × Nat) := do
  if maxLen = 0 then return (invalidUtf8, 0)
  else
    -- one byte
    let d0 ← utf8[0]?.map UInt8.toNat
    if d0 &&& bitMask1 = 0 then return (d0, 1)
    else if maxLen < 2 then return (invalidUtf8, 0)
    else
      -- two bytes
      let d1 ← utf8[1]?.map UInt8.toNat
      if d0 &&& bitMask3 = bitMask2 then
        if isContinuation d1 then
          return (((d0 &&& utf.mask5Bit) <<< utf.dataWidth ||| (d1 &&& utf.mask6Bit) : Nat), 2)
        else return (invalidUtf8, 0)
      else if maxLen < 3 then return (invalidUtf8, 0)
      else
        -- three bytes
        let d2 ← utf8[2]?.map UInt8.toNat
        if d0 &&& bitMask4 = bitMask3 then
          if isContinuation d1 && isContinuation d2 then
            return (((d0 &&& utf.mask4Bit) <<< 12 ||| (d1 &&& utf.mask6Bit) <<< utf.dataWidth |||
              (d2 &&& utf.mask6Bit) : Nat), 3)
          else return (invalidUtf8, 0)
        else if maxLen < 4 then return (invalidUtf8, 0)
        else
          -- four bytes
          let d3 ← utf8[3]?.map UInt8.toNat
          if d0 &&& bitMask5 = bitMask4 then
            if isContinuation d1 && isContinuation d2 && isContinuation d3 then
              return (((d0 &&& utf.mask4Bit) <<< 18 ||| (d1 &&& utf.mask6Bit) <<< 12 |||
                (d2 &&& utf.mask6Bit) <<< utf.dataWidth ||| (d3 &&& utf.mask6Bit) : Nat), 4)
            else return (invalidUtf8, 0)
          else return (invalidUtf8, 0)

end Utf

end ArkRuntime
