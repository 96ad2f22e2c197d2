import ArkRuntime.RegExp.RangeSet

/-!
# Regular expression bytecode

The instructions of `ecmascript/regexp/regexp_opcode.h` with the operands that `EmitOpCode` and
`InsertOpCode` are called with, the bytes that these write into a `DynChunk`, and the reads with which
the executor takes an instruction apart again. An operand that is wider than its field loses its high
bits. Numbers are stored with the low byte first.
-/

namespace ArkRuntime

namespace RegExp

/-- The values of `RegExpOpCode`, in the order of the enumeration. -/
inductive Instr where
  | saveStart (capture : Nat)
  | saveEnd (capture : Nat)
  | char (value : Nat)
  | goto (offset : Nat)
  | splitFirst (offset : Nat)
  | splitNext (offset : Nat)
  | matchAhead (offset : Nat)
  | negativeMatchAhead (offset : Nat)
  | matched
  | loop (start min max : Nat)
  | loopGreedy (start min max : Nat)
  | pushChar
  | checkChar (offset : Nat)
  | push
  | pop
  | saveReset (first last : Nat)
  | lineStart
  | lineEnd
  | wordBoundary
  | notWordBoundary
  | all
  | dots
  | matchEnd
  | prev
  | range (rangeSet : RangeSet)
  | backreference (capture : Nat)
  | backwardBackreference (capture : Nat)
  | char32 (value : Nat)
  | range32 (rangeSet : RangeSet)
deriving DecidableEq, Repr

/-! ## `DynChunk` -/

/-- `EmitChar`. -/
def u8 (n : Nat) : List UInt8 := [UInt8.ofNat n]

/-- `EmitU16`. -/
def u16 (n : Nat) : List UInt8 := [UInt8.ofNat n, UInt8.ofNat (n / 2 ^ 8)]

/-- `EmitU32`. -/
def u32 (n : Nat) : List UInt8 :=
  [UInt8.ofNat n, UInt8.ofNat (n / 2 ^ 8), UInt8.ofNat (n / 2 ^ 16), UInt8.ofNat (n / 2 ^ 24)]

/-- `GetU8`. -/
def getU8 (buf : List UInt8) (offset : Nat) : Option Nat := buf[offset]?.map UInt8.toNat

/-- `GetU16`. -/
def getU16 (buf : List UInt8) (offset : Nat) : Option Nat := do
  return (← getU8 buf offset) + 2 ^ 8 * (← getU8 buf (offset + 1))

/-- `GetU32`. -/
def getU32 (buf : List UInt8) (offset : Nat) : Option Nat := do
  return (← getU16 buf offset) + 2 ^ 16 * (← getU16 buf (offset + 2))

namespace Instr

/-- The bytes of a class: the number of ranges and their ends. -/
def emitRanges (emit : Nat → List UInt8) (rangeSet : RangeSet) : List UInt8 :=
  u16 rangeSet.length ++ rangeSet.flatMap fun range => emit range.first ++ emit range.second

/-- `EmitOpCode` and `InsertOpCode`: the bytes of an instruction. -/
def emit : Instr → List UInt8
  | saveStart capture => u8 0 ++ u8 (capture &&& 0xff)
  | saveEnd capture => u8 1 ++ u8 (capture &&& 0xff)
  | char value => u8 2 ++ u16 (value &&& 0xffff)
  | goto offset => u8 3 ++ u32 offset
  | splitFirst offset => u8 4 ++ u32 offset
  | splitNext offset => u8 5 ++ u32 offset
  | matchAhead offset => u8 6 ++ u32 offset
  | negativeMatchAhead offset => u8 7 ++ u32 offset
  | matched => u8 8
  | loop start min max => u8 9 ++ u32 start ++ u32 min ++ u32 max
  | loopGreedy start min max => u8 10 ++ u32 start ++ u32 min ++ u32 max
  | pushChar => u8 11
  | checkChar offset => u8 12 ++ u32 offset
  | push => u8 13
  | pop => u8 14
  | saveReset first last => u8 15 ++ u8 (first &&& 0xff) ++ u8 (last &&& 0xff)
  | lineStart => u8 16
  | lineEnd => u8 17
  | wordBoundary => u8 18
  | notWordBoundary => u8 19
  | all => u8 20
  | dots => u8 21
  | matchEnd => u8 22
  | prev => u8 23
  | range rangeSet => u8 24 ++ emitRanges u16 rangeSet
  | backreference capture => u8 25 ++ u8 (capture &&& 0xff)
  | backwardBackreference capture => u8 26 ++ u8 (capture &&& 0xff)
  | char32 value => u8 27 ++ u32 value
  | range32 rangeSet => u8 28 ++ emitRanges u32 rangeSet

/-- The number of bytes of an instruction: `GetSize`, and for the classes what their handlers skip. -/
def size : Instr → Nat
  | saveStart _ | saveEnd _ | backreference _ | backwardBackreference _ => 2
  | char _ | saveReset _ _ => 3
  | goto _ | splitFirst _ | splitNext _ | matchAhead _ | negativeMatchAhead _ | checkChar _
  | char32 _ => 5
  | loop _ _ _ | loopGreedy _ _ _ => 13
  | range rangeSet => 3 + 4 * rangeSet.length
  | range32 rangeSet => 3 + 8 * rangeSet.length
  | _ => 1

end Instr

/-- `count` ranges whose ends are read by `get` and take `width` bytes each. -/
def getRanges (get : List UInt8 → Nat → Option Nat) (width : Nat) (buf : List UInt8) :
    Nat → Nat → Option RangeSet
  | 0, _ => some []
  | count + 1, offset => do
      let first ← get buf offset
      let second ← get buf (offset + width)
      return ⟨first, second⟩ :: (← getRanges get width buf count (offset + 2 * width))

/-- The instruction at an offset, as the handlers read it. -/
def fetch (buf : List UInt8) (pc : Nat) : Option Instr := do
  match ← getU8 buf pc with
  | 0 => return .saveStart (← getU8 buf (pc + 1))
  | 1 => return .saveEnd (← getU8 buf (pc + 1))
  | 2 => return .char (← getU16 buf (pc + 1))
  | 3 => return .goto (← getU32 buf (pc + 1))
  | 4 => return .splitFirst (← getU32 buf (pc + 1))
  | 5 => return .splitNext (← getU32 buf (pc + 1))
  | 6 => return .matchAhead (← getU32 buf (pc + 1))
  | 7 => return .negativeMatchAhead (← getU32 buf (pc + 1))
  | 8 => return .matched
  | 9 => return .loop (← getU32 buf (pc + 1)) (← getU32 buf (pc + 5)) (← getU32 buf (pc + 9))
  | 10 => return .loopGreedy (← getU32 buf (pc + 1)) (← getU32 buf (pc + 5)) (← getU32 buf (pc + 9))
  | 11 => return .pushChar
  | 12 => return .checkChar (← getU32 buf (pc + 1))
  | 13 => return .push
  | 14 => return .pop
  | 15 => return .saveReset (← getU8 buf (pc + 1)) (← getU8 buf (pc + 2))
  | 16 => return .lineStart
  | 17 => return .lineEnd
  | 18 => return .wordBoundary
  | 19 => return .notWordBoundary
  | 20 => return .all
  | 21 => return .dots
  | 22 => return .matchEnd
  | 23 => return .prev
  | 24 => return .range (← getRanges getU16 2 buf (← getU16 buf (pc + 1)) (pc + 3))
  | 25 => return .backreference (← getU8 buf (pc + 1))
  | 26 => return .backwardBackreference (← getU8 buf (pc + 1))
  | 27 => return .char32 (← getU32 buf (pc + 1))
  | 28 => return .range32 (← getRanges getU32 4 buf (← getU16 buf (pc + 1)) (pc + 3))
  | _ => none

end RegExp

end ArkRuntime
