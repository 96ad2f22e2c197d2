import ArkRuntime.Compiler.Circuit
import ArkRuntime.Misc.Binary32

/-!
# Constant folding and collapsed conversions

`ConstantFolding::VisitGate` (`compiler/constant_folding.cpp`) and `InstructionCombine::VisitConvert`
(`compiler/instruction_combine.cpp`), which find another gate for a gate, and the values of gates that both are to
agree on. The target has 64 bits. A floating-point number is its exact value; a tagged value is its word.
-/

namespace ArkRuntime.Compiler

/-- Truncation toward zero. -/
def truncate (q : Rat) : Int := q.num.tdiv q.den

/-- What the source leaves to the machine of the compiler, and the gates to that of the code. -/
structure Platform where
  /-- What an operation on `int`s of the compiler gives whose exact result is no `int`, if anything. -/
  overflow : Int → Option Int32
  /-- What `INT_MIN % -1` gives in the compiler, if anything. -/
  remainder : Option Int32
  /-- What the code converts a number to that is not finite or that fits into no `int`. -/
  convert : Option Rat → BitVec 32

namespace Platform

variable (platform : Platform)

/-- An operation on `int`s in the compiler, by its exact result. -/
def int (n : Int) : Visit Int32 := .ofOption ((exactInt32 n).or (platform.overflow n))

/-- The conversion of a number to an `int` in the code; `none` is one that is not finite. -/
def toInt32 (number : Option Rat) : BitVec 32 :=
  match number with
  | some q => if FitsInt32 (truncate q) then BitVec.ofInt 32 (truncate q) else platform.convert number
  | none => platform.convert number

end Platform

namespace Circuit

variable (c : Circuit) (platform : Platform)

def tagMark : UInt64 := 0xFFFF000000000000

/-- `GateAccessor::GetInt32FromConstant`. -/
def getInt32FromConstant (gate : GateRef) : Int32 :=
  let rawValue := c.getConstantValue gate
  if (c.gate gate).isNJSValueType then rawValue.toUInt32.toInt32
  else (rawValue &&& ~~~tagMark).toUInt32.toInt32

def isInt32Type (gate : GateRef) : Bool := c.getMachineType gate = .I32

/-- `Circuit::GetConstantGate`. -/
def getConstantGate (machineType : MachineType) (value : UInt64) : GateRef × Circuit :=
  match c.constantCache.find? (·.1 = (machineType, value)) with
  | some entry => (entry.2, c)
  | none => (c.gates.length, {
      gates := c.gates ++ [Gate.constant machineType value]
      constantCache := ((machineType, value), c.gates.length) :: c.constantCache
      cached := by
        intro entry member
        rcases List.mem_cons.mp member with rfl | old
        · exact List.getElem?_concat_length
        · have here := c.cached entry old
          rwa [List.getElem?_append_left (List.getElem?_eq_some_iff.mp here).1]
      ins_lt := by
        intro gate member input inside
        rw [List.length_append]
        rcases List.mem_append.mp member with old | new
        · exact Nat.lt_add_right _ (c.ins_lt gate old input inside)
        · rw [List.mem_singleton.mp new] at inside
          cases inside })

/-- `Int32Constant`. -/
def int32Constant (val : Int32) : GateRef × Circuit := c.getConstantGate .I32 val.toInt64.toUInt64

/-- `Int64Constant`, whose parameter is a `size_t`. -/
def int64Constant (val : UInt64) : GateRef × Circuit := c.getConstantGate .I64 val

/-- `VisitZEXT`. -/
def visitZEXT (gate : GateRef) : Visit (GateRef × Circuit) :=
  let input := c.getValueIn gate 0
  if c.getMachineType gate = c.getMachineType input then .found (input, c)
  else if c.isConstant input ∧ c.isInt32Type input then
    let value := c.getInt32FromConstant input
    match c.getMachineType gate with
    | .I32 => .found (c.int32Constant value)
    | .ARCH | .I64 => .found (c.int64Constant value.toInt64.toUInt64)
    | _ => .null
  else .null

/-- What `VisitADD`, `VisitSUB`, `VisitMUL`, `VisitSMOD` and `VisitUMOD` share. -/
def visitInt32 (fold : Int32 → Int32 → Visit Int32) (gate : GateRef) : Visit (GateRef × Circuit) :=
  let left := c.getValueIn gate 0
  let right := c.getValueIn gate 1
  if ¬(c.isInt32Type gate ∧ c.isInt32Type left ∧ c.isInt32Type right) then .null
  else if c.isConstant left ∧ c.isConstant right then
    (fold (c.getInt32FromConstant left) (c.getInt32FromConstant right)).map c.int32Constant
  else .null

/-- `VisitADD`. -/
def visitADD : GateRef → Visit (GateRef × Circuit) :=
  c.visitInt32 fun lvalue rvalue => platform.int (lvalue.toInt + rvalue.toInt)

/-- `VisitSUB`. -/
def visitSUB : GateRef → Visit (GateRef × Circuit) :=
  c.visitInt32 fun lvalue rvalue => platform.int (lvalue.toInt - rvalue.toInt)

/-- `VisitMUL`. -/
def visitMUL : GateRef → Visit (GateRef × Circuit) :=
  c.visitInt32 fun lvalue rvalue => platform.int (lvalue.toInt * rvalue.toInt)

/-- `VisitSMOD`, whose remainder is undefined where the quotient is no `int`. -/
def visitSMOD : GateRef → Visit (GateRef × Circuit) :=
  c.visitInt32 fun lvalue rvalue =>
    if rvalue ≠ 0 then
      if lvalue = Int32.minValue ∧ rvalue = -1 then .ofOption platform.remainder else .found (lvalue % rvalue)
    else .null

/-- `VisitUMOD`. -/
def visitUMOD : GateRef → Visit (GateRef × Circuit) :=
  c.visitInt32 fun lvalue rvalue =>
    if rvalue ≠ 0 then .found (lvalue.toUInt32 % rvalue.toUInt32).toInt32 else .null

/-- `ConstantFolding::VisitGate`. -/
def visitGate (gate : GateRef) : Visit (GateRef × Circuit) :=
  match c.getOpCode gate with
  | .ADD => c.visitADD platform gate
  | .SUB => c.visitSUB platform gate
  | .MUL => c.visitMUL platform gate
  | .SMOD => c.visitSMOD platform gate
  | .UMOD => c.visitUMOD gate
  | .ZEXT => c.visitZEXT gate
  | _ => .null

/-- What the cases of `VisitConvert` share: the inverse conversion is left out with this one. -/
def collapse (inverse : OpCode) (gate : GateRef) : Visit (GateRef × Circuit) :=
  let input := c.getValueIn gate 0
  if c.getOpCode input = inverse then .found (c.getValueIn input 0, c) else .null

/-- `InstructionCombine::VisitConvert`. -/
def visitConvert (gate : GateRef) : Visit (GateRef × Circuit) :=
  match c.getOpCode gate with
  | .TAGGED_TO_INT64 => c.collapse .INT64_TO_TAGGED gate
  | .INT64_TO_TAGGED => c.collapse .TAGGED_TO_INT64 gate
  | .SIGNED_INT_TO_FLOAT => c.collapse .FLOAT_TO_SIGNED_INT gate
  | .FLOAT_TO_SIGNED_INT => c.collapse .SIGNED_INT_TO_FLOAT gate
  | _ => .null

/-- A visit of one of the two passes, which replaces the gate by another or goes wrong. -/
def Replaces (gate : GateRef) (visit : Visit (GateRef × Circuit)) : Prop :=
  (c.visitGate platform gate = visit ∨ c.visitConvert gate = visit) ∧ visit ≠ .null

end Circuit

/-! ## Values -/

/-- A number is `none` where it is not finite. -/
inductive Value where
  | int (width : Nat) (bits : BitVec width)
  | float64 (number : Option Rat)
  | float32 (number : Option Binary32.Single)

/-- The number of a floating-point value of either format. -/
def Value.number : Value → Option (Option Rat)
  | int _ _ => none
  | float64 number => some number
  | float32 number => some (number.map Subtype.val)

/-- The bits of the integers of a type. -/
def width : MachineType → Option Nat
  | .I1 => some 1
  | .I8 => some 8
  | .I16 => some 16
  | .I32 => some 32
  | .I64 | .ARCH => some 64
  | _ => none

/-- The values of the gates of a type. -/
def Value.HasType (v : Value) : MachineType → Prop
  | .F64 => ∃ number, v = .float64 number
  | .F32 => ∃ number, v = .float32 number
  | machineType => ∀ w, width machineType = some w → ∃ b, v = .int w b

/-- The operation of the machine on integers of one width. -/
def Computes (gate : Gate) (val : GateRef → Value) (v : Value) (op : (w : Nat) → BitVec w → BitVec w → BitVec w → Prop) :
    Prop :=
  ∀ w, width gate.machineType = some w → ∃ a b r : BitVec w, val (gate.valueIns.getD 0 0) = .int w a ∧
    val (gate.valueIns.getD 1 0) = .int w b ∧ v = .int w r ∧ op w a b r

theorem fitsInt32_of_bits (b : BitVec 32) : FitsInt32 b.toInt :=
  ⟨BitVec.le_toInt b, Int.le_of_lt_add_one BitVec.toInt_lt⟩

/-- An `int` as a number of a type. -/
def Value.ofInt32 (machineType : MachineType) (b : BitVec 32) : Option Value :=
  match machineType with
  | .F64 => some (.float64 (some (b.toInt : Int)))
  | .F32 => some (.float32 (some (Binary32.Single.ofInt b.toInt (fitsInt32_of_bits b))))
  | _ => none

/-- The values that a gate can have where its inputs have theirs. A remainder by 0 may be anything. -/
def Gate.Means (platform : Platform) (gate : Gate) (val : GateRef → Value) (v : Value) : Prop :=
  let input := val (gate.valueIns.getD 0 0)
  match gate.opCode with
  | .CONSTANT value => ∀ w, width gate.machineType = some w → v = .int w (BitVec.ofNat w value.toNat)
  | .ADD => Computes gate val v fun _ a b r => r = a + b
  | .SUB => Computes gate val v fun _ a b r => r = a - b
  | .MUL => Computes gate val v fun _ a b r => r = a * b
  | .SMOD => Computes gate val v fun _ a b r => b ≠ 0 → r = a.srem b
  | .UMOD => Computes gate val v fun _ a b r => b ≠ 0 → r = a % b
  | .ZEXT => ∃ w b w', input = .int w b ∧ width gate.machineType = some w' ∧ w ≤ w' ∧ v = .int w' (b.setWidth w')
  | .TAGGED_TO_INT64 | .INT64_TO_TAGGED => ∃ b, input = .int 64 b ∧ v = .int 64 b
  | .SIGNED_INT_TO_FLOAT => ∃ b, input = .int 32 b ∧ Value.ofInt32 gate.machineType b = some v
  | .FLOAT_TO_SIGNED_INT => ∃ number, input.number = some number ∧ v = .int 32 (platform.toInt32 number)
  | _ => True

/-- An assignment of values to the gates. -/
def Circuit.Valuation (c : Circuit) (platform : Platform) (val : GateRef → Value) : Prop :=
  ∀ ref gate, c.gates[ref]? = some gate → gate.Means platform val (val ref) ∧ (val ref).HasType gate.machineType

/-- A float to convert is finite and fits into an `int`. -/
def Circuit.Accepts (c : Circuit) (val : GateRef → Value) (gate : GateRef) : Prop :=
  c.getOpCode gate = .SIGNED_INT_TO_FLOAT →
    ∃ q, (val (c.getValueIn (c.getValueIn gate 0) 0)).number = some (some q) ∧ FitsInt32 (truncate q)

/-- The visit comes to its end, the values of the gates can be kept for what it finds, and the gate that is found has
    the same value in every such assignment. -/
def Circuit.Preserves (c : Circuit) (platform : Platform) (visit : Visit (GateRef × Circuit)) (val : GateRef → Value)
    (gate : GateRef) : Prop :=
  visit.Meets fun found =>
    (∃ val', found.2.Valuation platform val' ∧ ∀ ref < c.gates.length, val' ref = val ref) ∧
      ∀ val', found.2.Valuation platform val' → (∀ ref < c.gates.length, val' ref = val ref) → val' found.1 = val' gate

/-- An `int` operation of the compiler has the exact result, or wraps around. -/
def Platform.Wraps (platform : Platform) (n : Int) : Prop :=
  FitsInt32 n ∨ platform.overflow n = some (Int32.ofInt n)

/-- The `int` is converted to a number of a type and back without a change: it is exact as a `float`, or it is
    what the machine makes of a `float` that is no `int`. -/
def Platform.KeepsInt (platform : Platform) (machineType : MachineType) (b : BitVec 32) : Prop :=
  machineType = .F32 → Binary32.unit b.toInt.natAbs ∣ b.toInt.natAbs ∨
    (¬FitsInt32 (Binary32.nearest b.toInt) ∧ platform.convert (some (Binary32.nearest b.toInt : Int)) = b)

/-- A sum, a difference and a product fit into an `int`, or the compiler's machine wraps them around. `INT_MIN` is not
    divided by -1, or with the remainder 0. A constant that is extended is not negative. A float that is converted to
    an `int` and back is an integer, and has the type of the result. An `int` that is converted to a number and back
    is kept by it. -/
def Circuit.Exact (c : Circuit) (platform : Platform) (val : GateRef → Value) (gate : GateRef) : Prop :=
  let input := c.getValueIn gate 0
  let left := (c.getInt32FromConstant input).toInt
  let right := (c.getInt32FromConstant (c.getValueIn gate 1)).toInt
  match c.getOpCode gate with
  | .ADD => platform.Wraps (left + right)
  | .SUB => platform.Wraps (left - right)
  | .MUL => platform.Wraps (left * right)
  | .SMOD => left = int32Min ∧ right = -1 → platform.remainder = some 0
  | .ZEXT => c.getMachineType gate = c.getMachineType input ∨ 0 ≤ left
  | .SIGNED_INT_TO_FLOAT =>
      (c.getMachineType gate = .F64 ∧ ∃ n : Int, val (c.getValueIn input 0) = .float64 (some n)) ∨
        (c.getMachineType gate = .F32 ∧
          ∃ (n : Int) (single : Binary32.IsSingle n), val (c.getValueIn input 0) = .float32 (some ⟨n, single⟩))
  | .FLOAT_TO_SIGNED_INT =>
      ∃ b, val (c.getValueIn input 0) = .int 32 b ∧ platform.KeepsInt (c.getMachineType input) b
  | _ => True

/-! ## Constants -/

variable {machineType : MachineType} {v : Value} {op : OpCode}

section Constants

variable {c c' : Circuit} {platform : Platform} {val val' : GateRef → Value} {gate result : GateRef}

theorem getElem?_of_present (h : c.gate gate ≠ Gate.absent) : c.gates[gate]? = some (c.gate gate) := by
  rw [Circuit.gate, List.getD_eq_getElem?_getD] at h ⊢
  cases here : c.gates[gate]? with
  | none =>
    rw [here] at h
    exact absurd rfl h
  | some g => rfl

theorem getElem?_of_opCode (h : c.getOpCode gate ≠ .OTHERS) : c.gates[gate]? = some (c.gate gate) :=
  getElem?_of_present fun absent => h (congrArg Gate.opCode absent)

theorem int_of_hasType (typed : v.HasType machineType) {w : Nat} (known : width machineType = some w) :
    ∃ b, v = .int w b := by
  cases machineType with
  | F64 | F32 => cases known
  | _ => exact typed w known

theorem Circuit.Valuation.means (hv : c.Valuation platform val) (opCode : c.getOpCode gate = op)
    (known : op ≠ .OTHERS) : (c.gate gate).opCode = op ∧ (c.gate gate).Means platform val (val gate) :=
  ⟨opCode, (hv gate _ (getElem?_of_opCode (opCode ▸ known))).1⟩

/-- The value of a constant is the one that is read from it. -/
theorem val_constant (hv : c.Valuation platform val) (constant : c.isConstant gate) (int32 : c.isInt32Type gate) :
    val gate = .int 32 (c.getInt32FromConstant gate).toBitVec := by
  obtain ⟨opCode, means⟩ := hv.means (Circuit.getOpCode_of_isConstant constant) (by simp)
  unfold Gate.Means at means
  rw [opCode] at means
  have type : (c.gate gate).machineType = .I32 := of_decide_eq_true int32
  rw [means 32 (by rw [type]; rfl), Circuit.getInt32FromConstant]
  congr 1
  split
  · rfl
  · -- the mark is above the 32 bits
    generalize c.getConstantValue gate = raw
    refine BitVec.eq_of_toNat_eq (?_ : (BitVec.ofNat 32 _).toNat = (BitVec.ofNat 32 _).toNat)
    rw [BitVec.toNat_ofNat, BitVec.toNat_ofNat, UInt64.toNat_and, Nat.and_mod_two_pow,
      show (~~~Circuit.tagMark).toNat % 2 ^ 32 = 2 ^ 32 - 1 from by decide, Nat.and_two_pow_sub_one_eq_mod, Nat.mod_mod]

theorem getConstantGate_spec (machineType : MachineType) (value : UInt64)
    (h : c.getConstantGate machineType value = (result, c')) :
    c'.gates[result]? = some (Gate.constant machineType value) ∧
      (c'.gates = c.gates ∨ c'.gates = c.gates ++ [Gate.constant machineType value]) := by
  unfold Circuit.getConstantGate at h
  split at h
  · next entry found =>
    obtain ⟨rfl, rfl⟩ := Prod.mk.inj h
    have key : entry.1 = (machineType, value) := by simpa using List.find?_some found
    have here := c.cached entry (List.mem_of_find?_eq_some found)
    rw [key] at here
    exact ⟨here, .inl rfl⟩
  · obtain ⟨rfl, rfl⟩ := Prod.mk.inj h
    exact ⟨List.getElem?_concat_length, .inr rfl⟩

theorem setWidth_signExtend (x : BitVec 32) : (x.signExtend 64).setWidth 32 = x := by
  ext i inside
  rw [BitVec.getElem_setWidth, BitVec.getLsbD_signExtend, if_pos inside, BitVec.getLsbD_eq_getElem inside,
    decide_eq_true (Nat.lt_trans inside (by decide : 32 < 64)), Bool.true_and]

theorem val_int32Constant (hv : c'.Valuation platform val') {x : Int32} (h : c.int32Constant x = (result, c')) :
    val' result = .int 32 x.toBitVec := by
  have means := (hv result _ (getConstantGate_spec _ _ h).1).1
  rw [means 32 rfl]
  exact congrArg (Value.int 32) (setWidth_signExtend x.toBitVec)

theorem val_int64Constant (hv : c'.Valuation platform val') {x : UInt64} (h : c.int64Constant x = (result, c')) :
    val' result = .int 64 x.toBitVec := by
  have means := (hv result _ (getConstantGate_spec _ _ h).1).1
  rw [means 64 rfl]
  congr 1
  simp

end Constants

/-! ## The circuit after a pass -/

theorem hasType_int {w : Nat} (known : width machineType = some w) (b : BitVec w) :
    (Value.int w b).HasType machineType := by
  have only (w' : Nat) (known' : width machineType = some w') : ∃ b', Value.int w b = .int w' b' := by
    cases known.symm.trans known'
    exact ⟨b, rfl⟩
  cases machineType with
  | F64 | F32 => cases known
  | _ => exact only

theorem exists_hasType (none : width machineType = none) : ∃ v : Value, v.HasType machineType := by
  cases machineType with
  | F64 => exact ⟨.float64 .none, .none, rfl⟩
  | F32 => exact ⟨.float32 .none, .none, rfl⟩
  | _ => exact ⟨.float64 .none, fun w known => absurd (none.symm.trans known) (by simp)⟩

section Extension

variable {c c' : Circuit} {platform : Platform} {val val' : GateRef → Value} {gate result : GateRef}

/-- The meaning of a gate is about the values of its first two inputs. -/
theorem Gate.means_congr {g : Gate} (first : val' (g.valueIns.getD 0 0) = val (g.valueIns.getD 0 0))
    (second : val' (g.valueIns.getD 1 0) = val (g.valueIns.getD 1 0)) :
    g.Means platform val' v ↔ g.Means platform val v := by
  unfold Gate.Means Computes
  rw [first, second]

theorem input_lt {g : Gate} (member : g ∈ c.gates) (index : Nat) : g.valueIns.getD index 0 < c.gates.length := by
  by_cases inside : index < g.valueIns.length
  · rw [List.getD_eq_getElem _ _ inside]
    exact c.ins_lt g member _ (List.getElem_mem inside)
  · rw [List.getD_eq_default _ _ (Nat.not_lt.mp inside)]
    exact List.length_pos_of_mem member

/-- A constant that is added gets its value, and the other gates keep theirs. -/
theorem Circuit.Valuation.extend (hv : c.Valuation platform val) {value : UInt64}
    (h : c.getConstantGate machineType value = (result, c')) :
    ∃ val', c'.Valuation platform val' ∧ ∀ ref < c.gates.length, val' ref = val ref := by
  rcases (getConstantGate_spec _ _ h).2 with same | added
  · exact ⟨val, fun ref g here => hv ref g (same ▸ here), fun _ _ => rfl⟩
  · have new : ∃ v, (Gate.constant machineType value).Means platform val v ∧ v.HasType machineType := by
      cases type : width machineType with
      | none =>
        obtain ⟨v, typed⟩ := exists_hasType type
        exact ⟨v, fun w some => absurd (type.symm.trans some) (by simp), typed⟩
      | some w =>
        refine ⟨.int w (BitVec.ofNat w value.toNat), fun w' some => ?_, hasType_int type _⟩
        cases type.symm.trans some
        rfl
    obtain ⟨v, means, typed⟩ := new
    refine ⟨fun ref => if ref = c.gates.length then v else val ref, fun ref g here => ?_, fun ref inside => ?_⟩
    · rw [added] at here
      rcases Nat.lt_or_ge ref c.gates.length with old | last
      · rw [List.getElem?_append_left old] at here
        have member := List.mem_of_getElem? here
        dsimp only
        rw [if_neg (Nat.ne_of_lt old)]
        refine ⟨(Gate.means_congr ?_ ?_).mpr (hv ref g here).1, (hv ref g here).2⟩
        · exact if_neg (Nat.ne_of_lt (input_lt member 0))
        · exact if_neg (Nat.ne_of_lt (input_lt member 1))
      · rw [List.getElem?_append_right last, List.getElem?_singleton] at here
        split at here
        · next first =>
          cases here
          dsimp only
          rw [if_pos (Nat.le_antisymm (Nat.le_of_sub_eq_zero first) last)]
          exact ⟨means, typed⟩
        · cases here
    · exact if_neg (Nat.ne_of_lt inside)

end Extension

/-! ## The values of both gates -/

section Replaced

variable {c c' : Circuit} {platform : Platform} {val : GateRef → Value} {gate : GateRef}

/-- Where the gate that is found has one value in all assignments, it is to be that of the visited gate. -/
theorem preserves_found_iff (hv : c.Valuation platform val) (inside : gate < c.gates.length)
    {found : GateRef × Circuit}
    (grows : found.2 = c ∨ ∃ machineType value, c.getConstantGate machineType value = found)
    (same : ∀ val', found.2.Valuation platform val' → (∀ ref < c.gates.length, val' ref = val ref) → val' found.1 = v) :
    c.Preserves platform (.found found) val gate ↔ v = val gate := by
  have extends_ : ∃ val', found.2.Valuation platform val' ∧ ∀ ref < c.gates.length, val' ref = val ref := by
    rcases grows with same | ⟨machineType, value, made⟩
    · exact ⟨val, same ▸ hv, fun _ _ => rfl⟩
    · exact hv.extend made
  constructor
  · rintro ⟨-, alike⟩
    obtain ⟨val', hv', kept⟩ := extends_
    rw [← same val' hv' kept, alike val' hv' kept, kept gate inside]
  · intro alike
    exact ⟨extends_, fun val' hv' kept => by rw [same val' hv' kept, alike, kept gate inside]⟩

theorem lt_of_opCode (opCode : c.getOpCode gate = op) (known : op ≠ .OTHERS) : gate < c.gates.length :=
  (List.getElem?_eq_some_iff.mp (getElem?_of_opCode (opCode ▸ known))).1

/-! ### Folded operations -/

/-- A fold is right exactly under a condition: it comes to its end, and computes what the operation does. -/
def FoldsIff (fold : Int32 → Int32 → Visit Int32) (op : (w : Nat) → BitVec w → BitVec w → BitVec w → Prop)
    (condition : Int32 → Int32 → Prop) : Prop :=
  ∀ a b r, op 32 a.toBitVec b.toBitVec r → fold a b ≠ .null → ((fold a b).Meets (·.toBitVec = r) ↔ condition a b)

theorem visitInt32_iff {fold : Int32 → Int32 → Visit Int32} {op : (w : Nat) → BitVec w → BitVec w → BitVec w → Prop}
    {condition : Int32 → Int32 → Prop} (folds : FoldsIff fold op condition) (hv : c.Valuation platform val)
    (inside : gate < c.gates.length) (computes : Computes (c.gate gate) val (val gate) op)
    (replaced : c.visitInt32 fold gate ≠ .null) :
    c.Preserves platform (c.visitInt32 fold gate) val gate ↔
      condition (c.getInt32FromConstant (c.getValueIn gate 0)) (c.getInt32FromConstant (c.getValueIn gate 1)) := by
  unfold Circuit.visitInt32 at replaced ⊢
  dsimp only at replaced ⊢
  split
  · next others =>
    rw [if_pos others] at replaced
    exact absurd rfl replaced
  · next types =>
    rw [if_neg types] at replaced
    obtain ⟨int32, int32Left, int32Right⟩ := not_not.mp types
    split
    · next constants =>
      rw [if_pos constants] at replaced
      have type : (c.gate gate).machineType = .I32 := of_decide_eq_true int32
      obtain ⟨a, b, r, left, right, value, computed⟩ := computes 32 (by rw [type]; rfl)
      obtain ⟨-, rfl⟩ := Value.int.inj (left.symm.trans (val_constant hv constants.1 int32Left))
      obtain ⟨-, rfl⟩ := Value.int.inj (right.symm.trans (val_constant hv constants.2 int32Right))
      have meets := folds (c.getInt32FromConstant (c.getValueIn gate 0)) (c.getInt32FromConstant (c.getValueIn gate 1)) r
        computed
      cases folded : fold (c.getInt32FromConstant (c.getValueIn gate 0)) (c.getInt32FromConstant (c.getValueIn gate 1)) with
      | null =>
        rw [folded] at replaced
        exact absurd rfl replaced
      | undefined =>
        rw [folded] at meets
        exact meets (by simp)
      | found x =>
        rw [folded] at meets
        refine (preserves_found_iff hv inside (.inr ⟨_, _, rfl⟩) fun val' hv' _ => val_int32Constant hv' rfl).trans ?_
        rw [← meets (by simp), value, Value.int.injEq, heq_eq_eq, and_iff_right rfl]
        exact Iff.rfl
    · next others =>
      rw [if_neg others] at replaced
      exact absurd rfl replaced

/-- An operation of the compiler that is to wrap around. -/
theorem int_meets_iff {n : Int} : (platform.int n).Meets (·.toBitVec = (Int32.ofInt n).toBitVec) ↔ platform.Wraps n := by
  unfold Platform.int Platform.Wraps exactInt32
  by_cases fits : FitsInt32 n
  · rw [if_pos fits]
    exact iff_of_true rfl (.inl fits)
  · rw [if_neg fits, or_iff_right fits, Option.none_or]
    cases platform.overflow n with
    | none => simp [Visit.ofOption]
    | some x =>
      rw [Option.some.injEq]
      exact Int32.toBitVec_inj

/-- The operations that the compiler carries out on `int`s. -/
theorem foldsIff_int {fold : Int → Int → Int} {op : (w : Nat) → BitVec w → BitVec w → BitVec w}
    (wraps : ∀ a b : Int32, (Int32.ofInt (fold a.toInt b.toInt)).toBitVec = op 32 a.toBitVec b.toBitVec) :
    FoldsIff (fun a b => platform.int (fold a.toInt b.toInt)) (fun w a b r => r = op w a b)
      fun a b => platform.Wraps (fold a.toInt b.toInt) := by
  rintro a b r rfl -
  rw [← wraps]
  exact int_meets_iff

theorem foldsIff_remainder :
    FoldsIff (fun a b => if b ≠ 0 then if a = Int32.minValue ∧ b = -1 then .ofOption platform.remainder else .found (a % b)
        else .null)
      (fun _ a b r => b ≠ 0 → r = a.srem b) fun a b => a.toInt = int32Min ∧ b.toInt = -1 → platform.remainder = some 0 := by
  intro a b r computed replaced
  dsimp only at replaced ⊢
  by_cases zero : b ≠ 0
  · have exact_ := computed fun same => zero (Int32.toBitVec_inj.mp same)
    subst exact_
    rw [if_pos zero]
    have least : (a.toInt = int32Min ∧ b.toInt = -1) ↔ a = Int32.minValue ∧ b = -1 :=
      and_congr (Int32.toInt_inj (x := a) (y := Int32.minValue)) (Int32.toInt_inj (x := b) (y := -1))
    rw [least]
    split
    · next both =>
      obtain ⟨rfl, rfl⟩ := both
      rw [forall_prop_of_true ⟨rfl, rfl⟩]
      cases platform.remainder with
      | none => simp [Visit.ofOption]
      | some x =>
        rw [Option.some.injEq, ← Int32.toBitVec_inj]
        exact Iff.rfl
    · next other => exact iff_of_true rfl fun both => absurd both other
  · rw [if_neg zero] at replaced
    exact absurd rfl replaced

theorem foldsIff_unsigned :
    FoldsIff (fun a b => if b ≠ 0 then .found (a.toUInt32 % b.toUInt32).toInt32 else .null)
      (fun _ a b r => b ≠ 0 → r = a % b) fun _ _ => True := by
  intro a b r computed replaced
  dsimp only at replaced ⊢
  by_cases zero : b ≠ 0
  · have exact_ := computed fun same => zero (Int32.toBitVec_inj.mp same)
    subst exact_
    rw [if_pos zero]
    exact iff_of_true rfl trivial
  · rw [if_neg zero] at replaced
    exact absurd rfl replaced

/-! ### Extensions -/

/-- A constant that is extended keeps its value exactly if it is not negative. -/
theorem signExtend_eq_iff (x : Int32) : x.toInt64.toUInt64.toBitVec = x.toBitVec.setWidth 64 ↔ 0 ≤ x := by
  have sign : x.toBitVec.msb = false ↔ 0 ≤ x := by
    rw [Int32.le_iff_toInt_le, BitVec.msb_eq_toInt, decide_eq_false_iff_not]
    exact Int.not_lt
  rw [← sign]
  constructor
  · intro same
    -- the extension has zeros above, and the other one the sign
    have top := congrArg (·.getLsbD 63) same
    have above : x.toBitVec.getLsbD 63 = false := BitVec.getLsbD_of_ge _ _ (by decide)
    change (x.toBitVec.signExtend 64).getLsbD 63 = _ at top
    rw [BitVec.getLsbD_signExtend, if_neg (by decide)] at top
    simpa [above] using top
  · exact fun nonnegative => BitVec.signExtend_eq_setWidth_of_msb_false nonnegative

theorem visitZEXT_iff (hv : c.Valuation platform val) (opCode : c.getOpCode gate = .ZEXT)
    (replaced : c.visitZEXT gate ≠ .null) : c.Preserves platform (c.visitZEXT gate) val gate ↔
      c.getMachineType gate = c.getMachineType (c.getValueIn gate 0) ∨
        0 ≤ (c.getInt32FromConstant (c.getValueIn gate 0)).toInt := by
  have inside := lt_of_opCode opCode (by simp)
  obtain ⟨zext, means⟩ := hv.means opCode (by simp)
  unfold Gate.Means at means
  rw [zext] at means
  obtain ⟨w, b, w', input, type, wider, value⟩ := means
  change val (c.getValueIn gate 0) = _ at input
  unfold Circuit.visitZEXT at replaced ⊢
  dsimp only at replaced ⊢
  split
  · next same =>
    have inputType : width (c.gate (c.getValueIn gate 0)).machineType = some w' :=
      (congrArg width same).symm.trans type
    have present : c.gate (c.getValueIn gate 0) ≠ Gate.absent := by
      intro absent
      rw [absent] at inputType
      cases inputType
    have inputHere := getElem?_of_present present
    obtain ⟨b', typed⟩ := int_of_hasType (hv _ _ inputHere).2 inputType
    obtain ⟨rfl, rest⟩ := Value.int.inj (input.symm.trans typed)
    have inputInside := (List.getElem?_eq_some_iff.mp inputHere).1
    refine (preserves_found_iff hv inside (.inl rfl) fun val' _ kept => kept _ inputInside).trans ?_
    refine iff_of_true ?_ (.inl same)
    rw [input, value, BitVec.setWidth_eq]
  · next different =>
    rw [if_neg different] at replaced
    split
    · next constant =>
      rw [if_pos constant] at replaced
      have known := val_constant hv constant.1 constant.2
      obtain ⟨rfl, rest⟩ := Value.int.inj (input.symm.trans known)
      cases eq_of_heq rest
      have int32 : c.getMachineType (c.getValueIn gate 0) = .I32 := of_decide_eq_true constant.2
      have extended (large : width (c.getMachineType gate) = some 64) :
          c.Preserves platform (.found (c.int64Constant
            (c.getInt32FromConstant (c.getValueIn gate 0)).toInt64.toUInt64)) val gate ↔
              0 ≤ (c.getInt32FromConstant (c.getValueIn gate 0)).toInt := by
        obtain rfl : w' = 64 := Option.some.inj (type.symm.trans large)
        refine (preserves_found_iff hv inside (.inr ⟨_, _, rfl⟩) fun val' hv' _ => val_int64Constant hv' rfl).trans ?_
        rw [value, Value.int.injEq, heq_eq_eq, and_iff_right rfl, signExtend_eq_iff, Int32.le_iff_toInt_le,
          Int32.toInt_zero]
      rw [or_iff_right different]
      split
      · next same => exact absurd (same.trans int32.symm) different
      · next arch => exact extended (by rw [arch]; rfl)
      · next i64 => exact extended (by rw [i64]; rfl)
      · next other _ _ => simp_all
    · next others =>
      rw [if_neg others] at replaced
      exact absurd rfl replaced

/-! ### Collapsed conversions -/

theorem collapse_iff {inverse : OpCode} (hv : c.Valuation platform val) (opCode : c.getOpCode gate = op)
    (known : op ≠ .OTHERS ∧ inverse ≠ .OTHERS) (replaced : c.collapse inverse gate ≠ .null) :
    c.getOpCode (c.getValueIn gate 0) = inverse ∧ (c.Preserves platform (c.collapse inverse gate) val gate ↔
      val (c.getValueIn (c.getValueIn gate 0) 0) = val gate) := by
  unfold Circuit.collapse at replaced ⊢
  dsimp only at replaced ⊢
  by_cases inner : c.getOpCode (c.getValueIn gate 0) = inverse
  · rw [if_pos inner]
    refine ⟨inner, preserves_found_iff hv (lt_of_opCode opCode known.1) (.inl rfl) fun val' _ kept => ?_⟩
    exact kept _ (input_lt (List.mem_of_getElem? (getElem?_of_opCode (inner ▸ known.2))) 0)
  · rw [if_neg inner] at replaced
    exact absurd rfl replaced

theorem truncate_intCast (n : Int) : truncate n = n := by
  simp [truncate]

/-- To a tagged word and back, or the other way round. -/
theorem word_same {op' : OpCode} (hv : c.Valuation platform val) (opCode : c.getOpCode gate = op)
    (inner : c.getOpCode (c.getValueIn gate 0) = op') (word : op = .TAGGED_TO_INT64 ∨ op = .INT64_TO_TAGGED)
    (word' : op' = .TAGGED_TO_INT64 ∨ op' = .INT64_TO_TAGGED) :
    val (c.getValueIn (c.getValueIn gate 0) 0) = val gate := by
  have copies {g : GateRef} {op : OpCode} (opCode : c.getOpCode g = op)
      (word : op = .TAGGED_TO_INT64 ∨ op = .INT64_TO_TAGGED) : val (c.getValueIn g 0) = val g := by
    obtain ⟨same, means⟩ := hv.means opCode (by rcases word with rfl | rfl <;> simp)
    unfold Gate.Means at means
    rw [same] at means
    rcases word with rfl | rfl
    · obtain ⟨b, input, value⟩ := means
      exact input.trans value.symm
    · obtain ⟨b, input, value⟩ := means
      exact input.trans value.symm
  exact (copies inner word').trans (copies opCode word)

/-- The conversion of an `int` to a number and back. -/
theorem toInt32_ofInt32_iff {b : BitVec 32} {number : Option Rat}
    (converted : Value.ofInt32 machineType b = some v) (same : v.number = some number) :
    b = platform.toInt32 number ↔ platform.KeepsInt machineType b := by
  have fits := fitsInt32_of_bits b
  unfold Platform.KeepsInt
  cases machineType with
  | F64 =>
    cases converted
    cases same
    refine iff_of_true ?_ fun single => nomatch single
    rw [Platform.toInt32, truncate_intCast, if_pos fits, BitVec.ofInt_toInt]
  | F32 =>
    cases converted
    cases same
    rw [forall_prop_of_true rfl, ← Binary32.nearest_eq_iff]
    change b = platform.toInt32 (some (Binary32.nearest b.toInt : Int)) ↔ _
    unfold Platform.toInt32
    dsimp only
    rw [truncate_intCast]
    split
    · next nearestFits =>
      rw [or_iff_left fun large => large.1 nearestFits, ← BitVec.toInt_inj, BitVec.toInt_ofInt, eq_comm]
      rw [Int.bmod_eq_of_le nearestFits.1 (Int.lt_add_one_of_le nearestFits.2)]
    · next large =>
      have changed : Binary32.nearest b.toInt ≠ b.toInt := fun same => large (by rw [same]; exact fits)
      rw [or_iff_right changed, and_iff_right large, eq_comm]
  | _ => cases converted

/-- A float that is converted to an `int` and back. -/
theorem float_same_iff (hv : c.Valuation platform val) (opCode : c.getOpCode gate = .SIGNED_INT_TO_FLOAT)
    (inner : c.getOpCode (c.getValueIn gate 0) = .FLOAT_TO_SIGNED_INT) (accepts : c.Accepts val gate) :
    val (c.getValueIn (c.getValueIn gate 0) 0) = val gate ↔
      (c.getMachineType gate = .F64 ∧ ∃ n : Int, val (c.getValueIn (c.getValueIn gate 0) 0) = .float64 (some n)) ∨
        (c.getMachineType gate = .F32 ∧ ∃ (n : Int) (single : Binary32.IsSingle n),
          val (c.getValueIn (c.getValueIn gate 0) 0) = .float32 (some ⟨n, single⟩)) := by
  obtain ⟨same, means⟩ := hv.means opCode (by simp)
  obtain ⟨same', means'⟩ := hv.means inner (by simp)
  unfold Gate.Means at means means'
  rw [same] at means
  rw [same'] at means'
  obtain ⟨b, input, value⟩ := means
  obtain ⟨number, float, result⟩ := means'
  change (val (c.getValueIn (c.getValueIn gate 0) 0)).number = _ at float
  change val (c.getValueIn gate 0) = _ at input
  change Value.ofInt32 (c.getMachineType gate) b = _ at value
  obtain ⟨q, finite, fits⟩ := accepts opCode
  obtain rfl := Option.some.inj (float.symm.trans finite)
  obtain ⟨-, rest⟩ := Value.int.inj (result.symm.trans input)
  have whole : b.toInt = truncate q := by
    rw [← eq_of_heq rest, Platform.toInt32, if_pos fits, BitVec.toInt_ofInt]
    exact Int.bmod_eq_of_le fits.1 (Int.lt_add_one_of_le fits.2)
  generalize val (c.getValueIn (c.getValueIn gate 0) 0) = x at *
  generalize val gate = v at *
  cases machineType : c.getMachineType gate with
  | F64 =>
    rw [machineType] at value
    cases value
    constructor
    · exact fun same => .inl ⟨rfl, b.toInt, same⟩
    · rintro (⟨-, n, rfl⟩ | ⟨single, -⟩)
      · cases finite
        rw [whole, truncate_intCast]
      · cases single
  | F32 =>
    rw [machineType] at value
    cases value
    constructor
    · exact fun same => .inr ⟨rfl, _, _, same⟩
    · rintro (⟨double, -⟩ | ⟨-, n, single, rfl⟩)
      · cases double
      · cases finite
        have exact_ : Binary32.nearest b.toInt = n := by
          rw [whole, truncate_intCast, Binary32.nearest_eq_iff]
          exact Binary32.unit_dvd single
        exact congrArg (Value.float32 <| some ·) (Subtype.ext (congrArg Int.cast exact_.symm))
  | _ =>
    rw [machineType] at value
    cases value

/-- An `int` that is converted to a number and back. -/
theorem int_same_iff (hv : c.Valuation platform val) (opCode : c.getOpCode gate = .FLOAT_TO_SIGNED_INT)
    (inner : c.getOpCode (c.getValueIn gate 0) = .SIGNED_INT_TO_FLOAT) :
    val (c.getValueIn (c.getValueIn gate 0) 0) = val gate ↔
      ∃ b, val (c.getValueIn (c.getValueIn gate 0) 0) = .int 32 b ∧
        platform.KeepsInt (c.getMachineType (c.getValueIn gate 0)) b := by
  obtain ⟨same, means⟩ := hv.means opCode (by simp)
  obtain ⟨same', means'⟩ := hv.means inner (by simp)
  unfold Gate.Means at means means'
  rw [same] at means
  rw [same'] at means'
  obtain ⟨number, float, value⟩ := means
  obtain ⟨b, input, converted⟩ := means'
  change val (c.getValueIn (c.getValueIn gate 0) 0) = _ at input
  have kept : b = platform.toInt32 number ↔ platform.KeepsInt (c.getMachineType (c.getValueIn gate 0)) b :=
    toInt32_ofInt32_iff converted float
  rw [input, value]
  constructor
  · exact fun same => ⟨b, rfl, kept.mp (eq_of_heq (Value.int.inj same).2)⟩
  · rintro ⟨b', same, keeps⟩
    cases same
    exact congrArg (Value.int 32) (kept.mpr keeps)

/-- The visits of the arithmetic gates. -/
theorem visitGate_iff {visit : Visit (GateRef × Circuit)} (hv : c.Valuation platform val)
    (visited : c.visitGate platform gate = visit) (replaced : visit ≠ .null) :
    c.Preserves platform visit val gate ↔ c.Exact platform val gate := by
  have means {op : OpCode} (opCode : c.getOpCode gate = op) (known : op ≠ .OTHERS) := hv.means opCode known
  have inside {op : OpCode} (opCode : c.getOpCode gate = op) (known : op ≠ .OTHERS) := lt_of_opCode opCode known
  unfold Gate.Means at means
  subst visited
  unfold Circuit.visitGate at replaced ⊢
  unfold Circuit.Exact
  cases opCode : c.getOpCode gate with
  | ADD =>
    obtain ⟨same, computes⟩ := means opCode (by simp)
    rw [same] at computes
    rw [opCode] at replaced
    exact visitInt32_iff (foldsIff_int fun a b => by simp) hv (inside opCode (by simp)) computes replaced
  | SUB =>
    obtain ⟨same, computes⟩ := means opCode (by simp)
    rw [same] at computes
    rw [opCode] at replaced
    exact visitInt32_iff (foldsIff_int fun a b => by simp) hv (inside opCode (by simp)) computes replaced
  | MUL =>
    obtain ⟨same, computes⟩ := means opCode (by simp)
    rw [same] at computes
    rw [opCode] at replaced
    exact visitInt32_iff (foldsIff_int fun a b => by simp) hv (inside opCode (by simp)) computes replaced
  | SMOD =>
    obtain ⟨same, computes⟩ := means opCode (by simp)
    rw [same] at computes
    rw [opCode] at replaced
    exact visitInt32_iff foldsIff_remainder hv (inside opCode (by simp)) computes replaced
  | UMOD =>
    obtain ⟨same, computes⟩ := means opCode (by simp)
    rw [same] at computes
    rw [opCode] at replaced
    exact visitInt32_iff foldsIff_unsigned hv (inside opCode (by simp)) computes replaced
  | ZEXT =>
    rw [opCode] at replaced
    exact visitZEXT_iff hv opCode replaced
  | _ =>
    rw [opCode] at replaced
    exact absurd rfl replaced

/-- The visits of the conversions. -/
theorem visitConvert_iff {visit : Visit (GateRef × Circuit)} (hv : c.Valuation platform val) (accepts : c.Accepts val gate)
    (visited : c.visitConvert gate = visit) (replaced : visit ≠ .null) :
    c.Preserves platform visit val gate ↔ c.Exact platform val gate := by
  subst visited
  unfold Circuit.visitConvert at replaced ⊢
  unfold Circuit.Exact
  cases opCode : c.getOpCode gate with
  | TAGGED_TO_INT64 =>
    rw [opCode] at replaced
    obtain ⟨inner, same⟩ := collapse_iff hv opCode (by simp) replaced
    exact same.trans (iff_true_intro (word_same hv opCode inner (.inl rfl) (.inr rfl)))
  | INT64_TO_TAGGED =>
    rw [opCode] at replaced
    obtain ⟨inner, same⟩ := collapse_iff hv opCode (by simp) replaced
    exact same.trans (iff_true_intro (word_same hv opCode inner (.inr rfl) (.inl rfl)))
  | SIGNED_INT_TO_FLOAT =>
    rw [opCode] at replaced
    obtain ⟨inner, same⟩ := collapse_iff hv opCode (by simp) replaced
    exact same.trans (float_same_iff hv opCode inner accepts)
  | FLOAT_TO_SIGNED_INT =>
    rw [opCode] at replaced
    obtain ⟨inner, same⟩ := collapse_iff hv opCode (by simp) replaced
    exact same.trans (int_same_iff hv opCode inner)
  | _ =>
    rw [opCode] at replaced
    exact absurd rfl replaced

/-- A gate and the one it is replaced by have the same value exactly if no `int` operation of the compiler goes another
    way than wrapping around, a constant that is extended is not negative, a float that is converted to an `int` and
    back is an integer of the type of the result, and an `int` that is converted to a number and back is kept. -/
theorem replaces_iff {visit : Visit (GateRef × Circuit)} (h : c.Replaces platform gate visit)
    (hv : c.Valuation platform val) (accepts : c.Accepts val gate) :
    c.Preserves platform visit val gate ↔ c.Exact platform val gate := by
  obtain ⟨folded | combined, replaced⟩ := h
  · exact visitGate_iff hv folded replaced
  · exact visitConvert_iff hv accepts combined replaced

end Replaced

/-- An overflowing operation of the compiler wraps around, `INT_MIN % -1` traps, and the code converts a number that is
    no `int` to `INT_MIN`. -/
def wrappingPlatform : Platform := ⟨fun n => some (Int32.ofInt n), none, fun _ => BitVec.intMin 32⟩

/-- A sum that overflows. -/
def sumCircuit : Circuit :=
  .ofGates [Gate.constant .I32 0x7FFFFFFF, Gate.constant .I32 1, ⟨.ADD, .I32, true, [0, 1]⟩] (by decide)

def sumValues (gate : GateRef) : Value := .int 32 (BitVec.ofNat 32 ([0x7FFFFFFF, 1, 0x80000000].getD gate 0))

theorem sumValues_valuation : sumCircuit.Valuation wrappingPlatform sumValues := by
  intro ref gate here
  match ref, here with
  | 0, here | 1, here =>
    cases here
    refine ⟨fun w type => ?_, hasType_int rfl _⟩
    cases type
    rfl
  | 2, here =>
    cases here
    refine ⟨fun w type => ?_, hasType_int rfl _⟩
    cases type
    exact ⟨_, _, _, rfl, rfl, rfl, rfl⟩

/-- The `int` 2 ^ 24 + 1, converted to a `float` and back. -/
def singleCircuit : Circuit :=
  .ofGates [Gate.constant .I32 16777217, ⟨.SIGNED_INT_TO_FLOAT, .F32, true, [0]⟩, ⟨.FLOAT_TO_SIGNED_INT, .I32, true, [1]⟩]
    (by decide)

def singleValues : GateRef → Value
  | 0 => .int 32 16777217
  | 1 => .float32 (some (Binary32.Single.ofInt 16777217 (by decide)))
  | _ => .int 32 (wrappingPlatform.toInt32 (some ((Binary32.nearest 16777217 : Int) : Rat)))

theorem singleValues_valuation : singleCircuit.Valuation wrappingPlatform singleValues := by
  intro ref gate here
  match ref, here with
  | 0, here =>
    cases here
    refine ⟨fun w type => ?_, hasType_int rfl _⟩
    cases type
    rfl
  | 1, here =>
    cases here
    exact ⟨⟨_, rfl, rfl⟩, _, rfl⟩
  | 2, here =>
    cases here
    exact ⟨⟨_, rfl, rfl⟩, hasType_int rfl _⟩

theorem replaces_sum_single :
    (sumCircuit.Preserves wrappingPlatform (.found (sumCircuit.int32Constant (-2147483648))) sumValues 2 ↔
        sumCircuit.Exact wrappingPlatform sumValues 2) ∧
      (singleCircuit.Preserves wrappingPlatform (.found (0, singleCircuit)) singleValues 2 ↔
        singleCircuit.Exact wrappingPlatform singleValues 2) :=
  ⟨replaces_iff ⟨.inl rfl, by simp⟩ sumValues_valuation (fun float => by cases float),
    replaces_iff ⟨.inr rfl, by simp⟩ singleValues_valuation (fun float => by cases float)⟩

/-- The constant -1, extended to 64 bits. -/
def zextCircuit : Circuit := .ofGates [Gate.constant .I32 0xFFFFFFFFFFFFFFFF, ⟨.ZEXT, .I64, true, [0]⟩] (by decide)

def zextValues : GateRef → Value
  | 0 => .int 32 (-1)
  | 1 => .int 64 0xFFFFFFFF
  | _ => .int 64 (-1)

/-- It is replaced by the 64-bit constant -1. -/
theorem replaces_zext : ¬∀ (c : Circuit) (platform : Platform) (val : GateRef → Value) (gate : GateRef)
    (visit : Visit (GateRef × Circuit)), c.Replaces platform gate visit → c.Valuation platform val →
      c.Accepts val gate → c.Preserves platform visit val gate := by
  intro h
  have valuation : (zextCircuit.int64Constant 0xFFFFFFFFFFFFFFFF).2.Valuation wrappingPlatform zextValues := by
    intro ref gate here
    match ref, here with
    | 0, here | 2, here =>
      cases here
      refine ⟨fun w type => ?_, hasType_int rfl _⟩
      cases type
      rfl
    | 1, here =>
      cases here
      exact ⟨⟨32, _, 64, rfl, rfl, by decide, rfl⟩, hasType_int rfl _⟩
  have old : zextCircuit.Valuation wrappingPlatform zextValues := fun ref gate here =>
    valuation ref gate ((List.getElem?_append_left (List.getElem?_eq_some_iff.mp here).1).trans here)
  have preserves := h zextCircuit wrappingPlatform zextValues 1
    (.found (zextCircuit.int64Constant 0xFFFFFFFFFFFFFFFF)) ⟨.inl rfl, by simp⟩ old (fun float => by cases float)
  have same := preserves.2 zextValues valuation fun _ _ => rfl
  exact absurd (eq_of_heq (Value.int.inj same).2) (by decide)

end ArkRuntime.Compiler
