import ArkRuntime.Misc.Int32
import Mathlib.Data.List.GetD
import Mathlib.Algebra.Order.Ring.Int

/-!
# Circuits

The part of `compiler/circuit.h` and `compiler/gate.h` that the passes below read: a
gate has an opcode with its parameters, a machine type, and the gates whose values are
its inputs. A `GateRef` is the id of a gate.
-/

namespace ArkRuntime.Compiler

abbrev GateRef := Nat

/-- `TYPED_BIN_OP_LIST`. -/
inductive TypedBinOp where
  | TYPED_ADD | TYPED_SUB | TYPED_MUL | TYPED_DIV | TYPED_MOD
  | TYPED_LESS | TYPED_LESSEQ | TYPED_GREATER | TYPED_GREATEREQ
  | TYPED_EQ | TYPED_NOTEQ | TYPED_STRICTEQ | TYPED_STRICTNOTEQ
  | TYPED_SHL | TYPED_SHR | TYPED_ASHR | TYPED_AND | TYPED_OR | TYPED_XOR | TYPED_EXP
  deriving DecidableEq

/-- `TYPED_UN_OP_LIST`. -/
inductive TypedUnOp where
  | TYPED_NEG | TYPED_NOT | TYPED_INC | TYPED_DEC | TYPED_ISFALSE | TYPED_ISTRUE
  deriving DecidableEq

inductive OnHeapMode where
  | NONE | ON_HEAP | NOT_ON_HEAP
  deriving DecidableEq

inductive MachineType where
  | NOVALUE | ANYVALUE | ARCH | FLEX | I1 | I8 | I16 | I32 | I64 | F32 | F64
  deriving DecidableEq

/-- The opcodes the passes tell apart, each with the parameters of its meta data. -/
inductive OpCode where
  | CONSTANT (value : UInt64)
  | TYPED_BINARY_OP (op : TypedBinOp)
  | TYPED_UNARY_OP (op : TypedUnOp)
  | INDEX_CHECK
  | LOAD_ARRAY_LENGTH
  | LOAD_TYPED_ARRAY_LENGTH (onHeap : OnHeapMode)
  | RANGE_GUARD (left right : Nat)
  | ADD | SUB | MUL | SMOD | UMOD | ZEXT
  | TAGGED_TO_INT64 | INT64_TO_TAGGED | SIGNED_INT_TO_FLOAT | FLOAT_TO_SIGNED_INT
  | OTHERS
  deriving DecidableEq

/-- A gate; `isNJSValueType` is what its `GateType` says. -/
structure Gate where
  opCode : OpCode
  machineType : MachineType
  isNJSValueType : Bool
  valueIns : List GateRef
  deriving DecidableEq

/-- The gate of a constant that is no tagged value. -/
def Gate.constant (machineType : MachineType) (value : UInt64) : Gate := ⟨.CONSTANT value, machineType, true, []⟩

def Gate.absent : Gate := ⟨.OTHERS, .NOVALUE, true, []⟩

/-- The gates, and the constants among them that `GetConstantGate` has made. -/
structure Circuit where
  gates : List Gate
  constantCache : List ((MachineType × UInt64) × GateRef)
  cached : ∀ entry ∈ constantCache, gates[entry.2]? = some (Gate.constant entry.1.1 entry.1.2)
  ins_lt : ∀ gate ∈ gates, ∀ input ∈ gate.valueIns, input < gates.length

namespace Circuit

variable (c : Circuit)

def gate (gate : GateRef) : Gate := c.gates.getD gate Gate.absent

/-! `GateAccessor`. -/

def getOpCode (gate : GateRef) : OpCode := (c.gate gate).opCode

def getMachineType (gate : GateRef) : MachineType := (c.gate gate).machineType

def getValueIn (gate : GateRef) (index : Nat) : GateRef := (c.gate gate).valueIns.getD index 0

def isConstant (gate : GateRef) : Bool :=
  match c.getOpCode gate with
  | .CONSTANT _ => true
  | _ => false

/-- The raw value of a constant; other gates are not asked for one. -/
def getConstantValue (gate : GateRef) : UInt64 :=
  match c.getOpCode gate with
  | .CONSTANT value => value
  | _ => 0

theorem getOpCode_of_isConstant {c : Circuit} {gate : GateRef} (constant : c.isConstant gate) :
    c.getOpCode gate = .CONSTANT (c.getConstantValue gate) := by
  unfold isConstant at constant
  unfold getConstantValue
  split at constant
  · next value opCode => rw [opCode]
  · cases constant

/-- A circuit without a cached constant. -/
def ofGates (gates : List Gate) (ins_lt : ∀ gate ∈ gates, ∀ input ∈ gate.valueIns, input < gates.length) : Circuit where
  gates := gates
  constantCache := []
  cached := by simp
  ins_lt := ins_lt

end Circuit

/-! ## Visits of gates -/

/-- How a visit of a gate ends: with the null gate or pointer, in an operation that has no
    result, or with what it finds. -/
inductive Visit (α : Type) where
  | null
  | undefined
  | found (result : α)

namespace Visit

variable {α β : Type} {p : α → Prop}

/-- A visit that finds something where its operations have results. -/
def ofOption : Option α → Visit α
  | some result => found result
  | none => undefined

def map (f : α → β) : Visit α → Visit β
  | null => null
  | undefined => undefined
  | found result => found (f result)

def bind (visit : Visit α) (f : α → Visit β) : Visit β :=
  match visit with
  | null => null
  | undefined => undefined
  | found result => f result

/-- The operations of the visit have results, and what it finds has a property. -/
def Meets (p : α → Prop) : Visit α → Prop
  | null => True
  | undefined => False
  | found result => p result

@[simp] theorem meets_null : (null : Visit α).Meets p ↔ True := Iff.rfl

@[simp] theorem meets_undefined : (undefined : Visit α).Meets p ↔ False := Iff.rfl

@[simp] theorem meets_found {result : α} : (found result).Meets p ↔ p result := Iff.rfl

theorem meets_ofOption {result : Option α} : (ofOption result).Meets p ↔ ∃ r, result = some r ∧ p r := by
  cases result with
  | none => simp [ofOption]
  | some r => simp [ofOption]

theorem Meets.map {visit : Visit α} {f : α → β} {q : β → Prop} (h : visit.Meets p) (imp : ∀ result, p result → q (f result)) :
    (visit.map f).Meets q := by
  cases visit with
  | null => trivial
  | undefined => exact h
  | found result => exact imp result h

end Visit

end ArkRuntime.Compiler
