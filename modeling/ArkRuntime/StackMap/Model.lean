import ArkRuntime.Misc.Leb128

/-!
# Deopt entries

The entries of `ArkStackMapBuilder` and `ArkStackMapParser` (`ecmascript/stackmap/ark_stackmap_builder.cpp`,
`ark_stackmap_parser.cpp`, `llvm/llvm_stackmap_type.cpp`) for the values that a deoptimization needs. `leb128` is a
parameter. A failed assertion about the input is `none`.
-/

namespace ArkRuntime

namespace StackMap

/-- `LocationTy::Kind`. -/
inductive Kind where
  | register
  | direct
  | indirect
  | constant
  | constantNdex
deriving DecidableEq, Repr

/-- `DwarfRegAndOffsetType`. -/
abbrev DwarfRegAndOffset := BitVec 16 × BitVec 32

/-- The variant of `IntType`, `LargeInt` and `DwarfRegAndOffsetType`. -/
inductive DeoptWord where
  | intType (v : BitVec 32)
  | largeInt (v : BitVec 64)
  | dwarfRegAndOffset (v : DwarfRegAndOffset)
deriving DecidableEq, Repr

structure ARKDeopt where
  id : BitVec 16
  kind : Kind
  value : DeoptWord
deriving DecidableEq, Repr

/-- The number that `EncodeVRegsInfo` encodes. -/
def vregIdAndKind (id : BitVec 16) : Kind → Option Int
  | .constant | .constantNdex => some (id.toInt * 2 + 0)
  | .indirect => some (id.toInt * 2 + 1)
  | .register | .direct => none

/-- `DecodeVRegsInfo`: the id, and whether the kind is the one of constants. -/
def decodeVRegsInfo (vregsInfo : Int) : BitVec 16 × Bool :=
  (BitVec.ofInt 16 (vregsInfo / 2), vregsInfo.tmod 2 = 0)

variable (leb : Leb128)

def encodeVRegsInfo (id : BitVec 16) (kind : Kind) : Option (List UInt8) :=
  (vregIdAndKind id kind).map leb.encodeSigned

/-- An entry that the loop of `GenARKDeopt` makes of two words. -/
def arkDeopt (id value : DeoptWord) : Option ARKDeopt :=
  match id with
  | .intType v =>
      match value with
      | .intType _ => some ⟨v.setWidth 16, .constant, value⟩
      | .largeInt _ => some ⟨v.setWidth 16, .constantNdex, value⟩
      | .dwarfRegAndOffset _ => some ⟨v.setWidth 16, .indirect, value⟩
  | _ => none

end StackMap

end ArkRuntime
