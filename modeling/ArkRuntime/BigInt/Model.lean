import ArkRuntime.Misc.Loop
import ArkRuntime.TaggedArray

/-!
# The functions of `js_bigint.cpp`

A `BigInt` (`ecmascript/js_bigint.h`) is a sign and an array of 32-bit digits, the lowest first.
Digit arithmetic is that of `UInt32` and wraps as `uint32_t` does. `GetDigit` and `SetDigit` are
checked: an index outside the array ends the call with `BigIntFault.invalidAccess`, so that a result
says that no access left its array. The other `ASSERT`s do not change what the code computes and
are not part of the model. A handle that the source mutates is a value that is passed on.

The `for` and `while` loops are those of `Misc/FallibleLoop`; a loop that would use up the bound
given here ends with `BigIntFault.unfinished`.
-/

namespace ArkRuntime

/-- How a call ends that does not return a value. -/
inductive BigIntFault where
  /-- `THROW_RANGE_ERROR_AND_RETURN`. -/
  | rangeError (message : String)
  /-- A digit outside a digit array, or a handle that holds no BigInt. -/
  | invalidAccess
  | unfinished
  deriving DecidableEq, Repr

/-- The result of a loop, within the bound on its rounds. -/
def finished {α : Type} : Option α → Except BigIntFault α
  | some a => .ok a
  | none => .error .unfinished

@[simp] theorem finished_some {α : Type} (a : α) : finished (some a) = .ok a := rfl

structure BigInt where
  sign : Bool
  digits : List UInt32
  deriving DecidableEq, Repr

namespace BigInt

def dateBits : Nat := 32
def maxBits : Nat := 2 ^ 20
def maxSize : Nat := maxBits / dateBits
def halfDateBits : UInt32 := 16
def halfUint32Value : UInt32 := 1 <<< halfDateBits
def halfDateMask : UInt32 := halfUint32Value - 1

/-- `GetLength`. -/
def length (x : BigInt) : Nat := x.digits.length

/-- `IsZero`. -/
def isZero (x : BigInt) : Bool := x.length == 1 && x.digits[0]? == some 0

/-- `IsUint32`. -/
def isUint32 (x : BigInt) : Bool := x.length == 1

def getDigit (digits : List UInt32) (index : Nat) : Except BigIntFault UInt32 :=
  match digits[index]? with
  | some digit => .ok digit
  | none => .error .invalidAccess

def setDigit (digits : List UInt32) (index : Nat) (digit : UInt32) :
    Except BigIntFault (List UInt32) :=
  if index < digits.length then .ok (digits.set index digit) else .error .invalidAccess

/-- The error of `CreateBigint`. -/
def sizeExceeded : BigIntFault := .rangeError "Maximum BigInt size exceeded"

/-- `CreateBigint`; `ObjectFactory::NewBigInt` clears the sign and the digits. -/
def createBigint (length : Nat) : Except BigIntFault BigInt :=
  if length > maxSize then .error sizeExceeded else .ok ⟨false, List.replicate length 0⟩

/-- `Copy`. -/
def copy (x : BigInt) (len : Nat) : Except BigIntFault BigInt := do
  let newBig ← createBigint len
  if len ≤ x.length then
    return { newBig with digits := x.digits.take len, sign := x.sign }
  else
    .error .invalidAccess

/-- `Int32ToBigInt`. -/
def int32ToBigInt (number : Int32) : Except BigIntFault BigInt := do
  let bigint ← createBigint 1
  let sign := decide (number < 0)
  let value := if sign then (-(number + 1)).toUInt32 + 1 else number.toUInt32
  let digits ← setDigit bigint.digits 0 value
  return ⟨sign, digits⟩

/-- `Uint32ToBigInt`. -/
def uint32ToBigInt (number : UInt32) : Except BigIntFault BigInt := do
  let bigint ← createBigint 1
  let digits ← setDigit bigint.digits 0 number
  return { bigint with digits }

/-! ## `RightTruncate` -/

/-- The highest index below `index` of a digit that is not zero. -/
def highestNonzero (digits : List UInt32) : Nat → Except BigIntFault (Option Nat)
  | 0 => .ok none
  | index + 1 => do
      let digit ← getDigit digits index
      if digit ≠ 0 then return some index else highestNonzero digits index

/-- `BigIntHelper::RightTruncate`; for a BigInt without digits it reads the digit `-1`. -/
def rightTruncate (x : BigInt) : Except BigIntFault BigInt :=
  if x.isZero then .ok { x with sign := false }
  else if x.length = 0 then .error .invalidAccess
  else do
    let top ← getDigit x.digits (x.length - 1)
    if top ≠ 0 then
      return x
    else
      match ← highestNonzero x.digits x.length with
      | none => int32ToBigInt 0
      | some index => copy x (index + 1)

/-! ## Comparison -/

/-- The loop of `Equal` from index `i` on. -/
def equalDigits (x y : List UInt32) : Nat → Nat → Except BigIntFault Bool
  | _, 0 => .ok true
  | i, n + 1 => do
      let xDigit ← getDigit x i
      let yDigit ← getDigit y i
      if xDigit ≠ yDigit then return false else equalDigits x y (i + 1) n

/-- `Equal`. -/
def equal (x y : BigInt) : Except BigIntFault Bool :=
  if x.sign ≠ y.sign ∨ x.length ≠ y.length then .ok false
  else equalDigits x.digits y.digits 0 x.length

/-- The loop of `AbsolutelyCompare`: the highest index below `index` where the digits differ. -/
def highestDifferent (x y : List UInt32) : Nat → Except BigIntFault (Option Nat)
  | 0 => .ok none
  | index + 1 => do
      let xDigit ← getDigit x index
      let yDigit ← getDigit y index
      if xDigit ≠ yDigit then return some index else highestDifferent x y index

/-- `AbsolutelyCompare`. -/
def absolutelyCompare (x y : BigInt) : Except BigIntFault ComparisonResult :=
  if x.length > y.length then .ok .great
  else if x.length < y.length then .ok .less
  else do
    match ← highestDifferent x.digits y.digits x.length with
    | none => return .equal
    | some index =>
        let xDigit ← getDigit x.digits index
        let yDigit ← getDigit y.digits index
        return if xDigit > yDigit then .great else .less

/-- `Compare`. -/
def compare (x y : BigInt) : Except BigIntFault ComparisonResult :=
  if x.sign ≠ y.sign then .ok (if x.sign then .less else .great)
  else do
    let compar ← absolutelyCompare x y
    return if x.sign ∧ compar ≠ .equal then
      if compar = .less then .great else .less
    else compar

/-! ## Addition and subtraction -/

/-- `BigIntHelper::AddHelper`: the sum, and the carry counter. -/
def addHelper (x y bigintCarry : UInt32) : UInt32 × UInt32 :=
  let addPlus := x + y
  (addPlus, if addPlus < x then bigintCarry + 1 else bigintCarry)

/-- `BigIntHelper::SubHelper`. -/
def subHelper (x y bigintCarry : UInt32) : UInt32 × UInt32 :=
  let minuSub := x - y
  (minuSub, if minuSub > x then bigintCarry + 1 else bigintCarry)

/-- The variables of a digit loop: the digits written so far and the carry. -/
structure Carried where
  digits : List UInt32
  carry : UInt32

/-- A round of the loops that combine a digit of `x`, a digit of `y` and the carry, for `AddHelper`
    or `SubHelper`. -/
def pairRound (helper : UInt32 → UInt32 → UInt32 → UInt32 × UInt32) (x y : List UInt32) (i : Nat)
    (s : Carried) : Except BigIntFault Carried := do
  let xDigit ← getDigit x i
  let yDigit ← getDigit y i
  let first := helper xDigit yDigit 0
  let second := helper first.1 s.carry first.2
  let digits ← setDigit s.digits i second.1
  return ⟨digits, second.2⟩

/-- A round of the loops that combine a digit of `x` and the carry. -/
def carryRound (helper : UInt32 → UInt32 → UInt32 → UInt32 × UInt32) (x : List UInt32) (i : Nat)
    (s : Carried) : Except BigIntFault Carried := do
  let xDigit ← getDigit x i
  let sum := helper xDigit s.carry 0
  let digits ← setDigit s.digits i sum.1
  return ⟨digits, sum.2⟩

/-- The two loops that `BigintAdd` and `BigintSub` have in common. -/
def combineDigits (helper : UInt32 → UInt32 → UInt32 → UInt32 × UInt32) (x y : List UInt32)
    (fresh : List UInt32) : Except BigIntFault Carried := do
  let low ← forRange (pairRound helper x y) 0 y.length ⟨fresh, 0⟩
  forRange (carryRound helper x) y.length (x.length - y.length) low

/-- `BigintAdd` where `x` is not shorter than `y`. -/
def addLonger (x y : BigInt) (resultSign : Bool) : Except BigIntFault BigInt := do
  let bigint ← createBigint (x.length + 1)
  let sum ← combineDigits addHelper x.digits y.digits bigint.digits
  let digits ← setDigit sum.digits x.length sum.carry
  rightTruncate ⟨resultSign, digits⟩

/-- `BigintAdd`. -/
def bigintAdd (x y : BigInt) (resultSign : Bool) : Except BigIntFault BigInt :=
  if x.length < y.length then addLonger y x resultSign else addLonger x y resultSign

/-- `BigintSub`. -/
def bigintSub (x y : BigInt) (resultSign : Bool) : Except BigIntFault BigInt := do
  let bigint ← createBigint x.length
  let difference ← combineDigits subHelper x.digits y.digits bigint.digits
  rightTruncate ⟨resultSign, difference.digits⟩

/-- `while (i > 0 && x->GetDigit(i) == y->GetDigit(i)) i--`. -/
def skipEqual (x y : List UInt32) : Nat → Except BigIntFault Nat
  | 0 => .ok 0
  | i + 1 => do
      let xDigit ← getDigit x (i + 1)
      let yDigit ← getDigit y (i + 1)
      if xDigit = yDigit then skipEqual x y i else return i + 1

/-- The end of `Add` and `Subtract`: the smaller magnitude is taken from the larger one. -/
def subSmaller (x y : BigInt) (xSignFlag ySignFlag : Bool) : Except BigIntFault BigInt :=
  if x.length > y.length then bigintSub x y xSignFlag
  else if x.length = y.length then do
    let i ← skipEqual x.digits y.digits (x.length - 1)
    let xDigit ← getDigit x.digits i
    let yDigit ← getDigit y.digits i
    if xDigit > yDigit then bigintSub x y xSignFlag else bigintSub y x ySignFlag
  else bigintSub y x ySignFlag

/-- `Add`. -/
def add (x y : BigInt) : Except BigIntFault BigInt :=
  if x.sign = y.sign then bigintAdd x y x.sign else subSmaller x y x.sign y.sign

/-- `Subtract`. -/
def subtract (x y : BigInt) : Except BigIntFault BigInt :=
  if x.sign ≠ y.sign then bigintAdd x y x.sign else subSmaller x y x.sign (!y.sign)

/-- `BigintAddOne`. -/
def bigintAddOne (x : BigInt) : Except BigIntFault BigInt := do
  let temp ← int32ToBigInt 1
  add x temp

/-- `UnaryMinus`. -/
def unaryMinus (x : BigInt) : Except BigIntFault BigInt :=
  if x.isZero then .ok x
  else do
    let y ← copy x x.length
    return { y with sign := !y.sign }

/-! ## Multiplication -/

/-- `Mul`: the high and the low digit of a product. -/
def mul (x y : UInt32) : UInt32 × UInt32 :=
  let lowBitX := x &&& halfDateMask
  let highBitX := x >>> halfDateBits
  let lowBitY := y &&& halfDateMask
  let highBitY := y >>> halfDateBits
  let lowRes := lowBitX * lowBitY
  let highRes := highBitX * highBitY
  let midRes1 := lowBitX * highBitY
  let midRes2 := highBitX * lowBitY
  let first := addHelper lowRes (midRes1 <<< halfDateBits) 0
  let second := addHelper first.1 (midRes2 <<< halfDateBits) first.2
  let high := (midRes1 >>> halfDateBits) + (midRes2 >>> halfDateBits) + highRes + second.2
  (high, second.1)

/-- The variables of the inner loops of `Multiply`. -/
structure Row where
  digits : List UInt32
  carry : UInt32
  high : UInt32
  index : Nat

/-- A round of the loop over the digits of `y`. -/
def mulRound (xVal : UInt32) (y : List UInt32) (j : Nat) (s : Row) : Except BigIntFault Row := do
  let value ← getDigit s.digits s.index
  let withHigh := addHelper value s.high 0
  let withCarry := addHelper withHigh.1 s.carry withHigh.2
  let yDigit ← getDigit y j
  let product := mul xVal yDigit
  let withLow := addHelper withCarry.1 product.2 withCarry.2
  let digits ← setDigit s.digits s.index withLow.1
  return ⟨digits, withLow.2, product.1, s.index + 1⟩

/-- A round of the loop that carries on above the digits of `y`. -/
def mulCarryRound (s : Row) : Except BigIntFault Row := do
  let value ← getDigit s.digits s.index
  let withHigh := addHelper value s.high 0
  let withCarry := addHelper withHigh.1 s.carry withHigh.2
  let digits ← setDigit s.digits s.index withCarry.1
  return ⟨digits, withCarry.2, 0, s.index + 1⟩

/-- The condition of that loop. -/
def leftOver (row : Row) : Bool := row.carry != 0 || row.high != 0

/-- A round of the outer loop of `Multiply`. -/
def multiplyRow (x y : List UInt32) (i : Nat) (digits : List UInt32) :
    Except BigIntFault (List UInt32) := do
  let xVal ← getDigit x i
  if xVal = 0 then
    return digits
  else
    let row ← forRange (mulRound xVal y) 0 y.length ⟨digits, 0, 0, i⟩
    let row ← whileLoop .unfinished leftOver mulCarryRound (digits.length + 1) row
    return row.digits

/-- `Multiply`. -/
def multiply (x y : BigInt) : Except BigIntFault BigInt :=
  if x.isZero then .ok x
  else if y.isZero then .ok y
  else do
    let bigint ← createBigint (x.length + y.length)
    let digits ← forRange (multiplyRow x.digits y.digits) 0 x.length bigint.digits
    rightTruncate ⟨x.sign != y.sign, digits⟩

/-! ## Bitwise operations -/

inductive Operate where
  | and
  | or
  | xor
  deriving DecidableEq, Repr

/-- The digit operation of `BitwiseOp`. -/
def Operate.apply : Operate → UInt32 → UInt32 → UInt32
  | .and, x, y => x &&& y
  | .or, x, y => x ||| y
  | .xor, x, y => x ^^^ y

/-- A round of a loop that writes the digit `op x y`. -/
def digitRound (op : UInt32 → UInt32 → UInt32) (x y : List UInt32) (i : Nat)
    (digits : List UInt32) : Except BigIntFault (List UInt32) := do
  let xDigit ← getDigit x i
  let yDigit ← getDigit y i
  setDigit digits i (op xDigit yDigit)

/-- A round of a loop that copies the digits of `x`. -/
def copyRound (x : List UInt32) (i : Nat) (digits : List UInt32) :
    Except BigIntFault (List UInt32) := do
  let xDigit ← getDigit x i
  setDigit digits i xDigit

/-- The digits above the shorter operand of `BitwiseOp`. -/
def bitwiseRest (op : Operate) (x y digits : List UInt32) : Except BigIntFault (List UInt32) :=
  if op = .or ∨ op = .xor then
    if x.length > y.length then forRange (copyRound x) y.length (x.length - y.length) digits
    else if y.length > x.length then forRange (copyRound y) x.length (y.length - x.length) digits
    else .ok digits
  else .ok digits

/-- `BitwiseOp`. -/
def bitwiseOp (op : Operate) (x y : BigInt) : Except BigIntFault BigInt := do
  let bigint ← createBigint (max x.length y.length)
  let low ← forRange (digitRound op.apply x.digits y.digits) 0 (min x.length y.length) bigint.digits
  let digits ← bitwiseRest op x.digits y.digits low
  rightTruncate { bigint with digits }

/-- `BitwiseSubOne`. -/
def bitwiseSubOne (bigint : BigInt) (maxLen : Nat) : Except BigIntFault BigInt := do
  let newBigint ← createBigint maxLen
  let difference ← forRange (carryRound subHelper bigint.digits) 0 bigint.length
    ⟨newBigint.digits, 1⟩
  rightTruncate { newBigint with digits := difference.digits }

/-- Every digit is the largest one: the sum needs another digit. -/
def needExpend (digits : List UInt32) : Nat → Nat → Except BigIntFault Bool
  | _, 0 => .ok true
  | i, n + 1 => do
      let digit ← getDigit digits i
      if (0xFFFFFFFF : UInt32) ≠ digit then return false else needExpend digits (i + 1) n

/-- The new top digit of `BitwiseAddOne`. -/
def expandDigits (expend : Bool) (bigintLength : Nat) (s : Carried) :
    Except BigIntFault (List UInt32) :=
  if expend then setDigit s.digits bigintLength s.carry else .ok s.digits

/-- `BitwiseAddOne`. -/
def bitwiseAddOne (bigint : BigInt) : Except BigIntFault BigInt := do
  let expend ← needExpend bigint.digits 0 bigint.length
  let newBigint ← createBigint (if expend then bigint.length + 1 else bigint.length)
  let sum ← forRange (carryRound addHelper bigint.digits) 0 bigint.length ⟨newBigint.digits, 1⟩
  let digits ← expandDigits expend bigint.length sum
  rightTruncate ⟨true, digits⟩

/-- `OneIsNegativeAND`. -/
def oneIsNegativeAND (x y : BigInt) : Except BigIntFault BigInt := do
  let yVal ← bitwiseSubOne y y.length
  let minLen := if x.length > yVal.length then yVal.length else x.length
  let newBigint ← createBigint x.length
  let low ← forRange (digitRound (fun a b => a &&& ~~~b) x.digits yVal.digits) 0 minLen
    newBigint.digits
  let digits ← forRange (copyRound x.digits) minLen (x.length - minLen) low
  rightTruncate { newBigint with digits }

/-- `BitwiseAND`. -/
def bitwiseAND (x y : BigInt) : Except BigIntFault BigInt :=
  if x.sign ∧ y.sign then do
    let xVal ← bitwiseSubOne x x.length
    let yVal ← bitwiseSubOne y y.length
    let temp ← bitwiseOp .or xVal yVal
    bitwiseAddOne temp
  else if x.sign ≠ y.sign then
    if !x.sign then oneIsNegativeAND x y else oneIsNegativeAND y x
  else bitwiseOp .and x y

/-- `OneIsNegativeXOR`. -/
def oneIsNegativeXOR (x y : BigInt) : Except BigIntFault BigInt := do
  let yVal ← bitwiseSubOne y y.length
  let temp ← bitwiseOp .xor x yVal
  bitwiseAddOne temp

/-- `BitwiseXOR`. -/
def bitwiseXOR (x y : BigInt) : Except BigIntFault BigInt :=
  if x.sign ∧ y.sign then do
    let xVal ← bitwiseSubOne x x.length
    let yVal ← bitwiseSubOne y y.length
    bitwiseOp .xor xVal yVal
  else if x.sign ≠ y.sign then
    if !x.sign then oneIsNegativeXOR x y else oneIsNegativeXOR y x
  else bitwiseOp .xor x y

/-- `OneIsNegativeOR`. -/
def oneIsNegativeOR (x y : BigInt) : Except BigIntFault BigInt := do
  let maxLen := if x.length < y.length then y.length else x.length
  let yVal ← bitwiseSubOne y maxLen
  let minLen := if x.length > yVal.length then yVal.length else x.length
  let newBigint ← createBigint yVal.length
  let low ← forRange (digitRound (fun a b => ~~~a &&& b) x.digits yVal.digits) 0 minLen
    newBigint.digits
  let digits ← forRange (copyRound yVal.digits) minLen (yVal.length - minLen) low
  let temp ← rightTruncate { newBigint with digits }
  let res ← bitwiseAddOne temp
  return { res with sign := true }

/-- `BitwiseOR`. -/
def bitwiseOR (x y : BigInt) : Except BigIntFault BigInt :=
  if x.sign ∧ y.sign then do
    let maxLen := if x.length < y.length then y.length else x.length
    let xVal ← bitwiseSubOne x maxLen
    let yVal ← bitwiseSubOne y y.length
    let temp ← bitwiseOp .and xVal yVal
    let res ← bitwiseAddOne temp
    return { res with sign := true }
  else if x.sign ≠ y.sign then
    if !x.sign then oneIsNegativeOR x y else oneIsNegativeOR y x
  else bitwiseOp .or x y

/-- `BitwiseNOT`. -/
def bitwiseNOT (x : BigInt) : Except BigIntFault BigInt := do
  let result ← bigintAddOne x
  return if x.sign then { result with sign := false } else { result with sign := true }

/-! ## Shifts -/

/-- A round of the loops that move digits to the left by less than a digit. -/
def shiftLeftRound (bitsMove : UInt32) (x : List UInt32) (digitMove index : Nat) (s : Carried) :
    Except BigIntFault Carried := do
  let value ← getDigit x index
  let digits ← setDigit s.digits (index + digitMove) ((value <<< bitsMove) ||| s.carry)
  return ⟨digits, value >>> (32 - bitsMove)⟩

/-- The loop over `x`, and the digit for the last carry. -/
def shiftLeftDigits (bitsMove : UInt32) (x : List UInt32) (digitMove : Nat)
    (fresh : List UInt32) : Except BigIntFault (List UInt32) := do
  let s ← forRange (shiftLeftRound bitsMove x digitMove) 0 x.length ⟨fresh, 0⟩
  if s.carry ≠ 0 then setDigit s.digits (x.length + digitMove) s.carry else return s.digits

/-- A round of the word-aligned loop of `LeftShiftHelper`. -/
def moveRound (x : List UInt32) (digitMove index : Nat) (digits : List UInt32) :
    Except BigIntFault (List UInt32) := do
  let digit ← getDigit x (index - digitMove)
  setDigit digits index digit

/-- The two cases of `LeftShiftHelper`: the digits of `x` moved up into the digits `fresh`. -/
def moveDigitsUp (x : List UInt32) (digitMove bitsMove : Nat) (fresh : List UInt32) :
    Except BigIntFault (List UInt32) :=
  if bitsMove = 0 then
    forRange (moveRound x digitMove) digitMove (fresh.length - digitMove) fresh
  else shiftLeftDigits (UInt32.ofNat bitsMove) x digitMove fresh

/-- `LeftShiftHelper`. -/
def leftShiftHelper (x y : BigInt) : Except BigIntFault BigInt :=
  if x.isZero then .ok x
  else do
    let moveNum ← getDigit y.digits 0
    let digitMove := moveNum.toNat / dateBits
    let bitsMove := moveNum.toNat % dateBits
    let bigint ← createBigint (digitMove + x.length + if bitsMove = 0 then 0 else 1)
    let digits ← moveDigitsUp x.digits digitMove bitsMove bigint.digits
    rightTruncate ⟨x.sign, digits⟩

/-- `ReturnIfRightShiftOverMax`. -/
def returnIfRightShiftOverMax (sign : Bool) : Except BigIntFault BigInt :=
  if sign then int32ToBigInt (-1) else int32ToBigInt 0

/-- A round of the unaligned loop of `RightShift`; `source` reads the digits that are moved. -/
def shiftRightRound (source : List UInt32 → List UInt32) (digitMove : Nat) (bitsMove : UInt32)
    (i : Nat) (s : Carried) : Except BigIntFault Carried := do
  let value ← getDigit (source s.digits) (i + digitMove + 1)
  let digits ← setDigit s.digits i ((value <<< (32 - bitsMove)) ||| s.carry)
  return ⟨digits, value >>> bitsMove⟩

/-- A round of the word-aligned loop of `RightShift`. -/
def moveDownRound (source : List UInt32 → List UInt32) (digitMove i : Nat)
    (digits : List UInt32) : Except BigIntFault (List UInt32) := do
  let digit ← getDigit (source digits) i
  setDigit digits (i - digitMove) digit

/-- `RightShift`, into the digits `bigint`. Where the two handles are the same object, `source` is
    the identity and the loops read what they have written. -/
def rightShift (bigint : List UInt32) (source : List UInt32 → List UInt32) (digitMove : Nat)
    (bitsMove : UInt32) : Except BigIntFault (List UInt32) :=
  let size := (source bigint).length
  if bitsMove = 0 then
    forRange (moveDownRound source digitMove) digitMove (size - digitMove) bigint
  else do
    let first ← getDigit (source bigint) digitMove
    let last := size - digitMove - 1
    let s ← forRange (shiftRightRound source digitMove bitsMove) 0 last
      ⟨bigint, first >>> bitsMove⟩
    setDigit s.digits last s.carry

/-- One of the `n` digits from index `i` on is not zero. -/
def anyNonzero (x : List UInt32) : Nat → Nat → Except BigIntFault Bool
  | _, 0 => .ok false
  | i, n + 1 => do
      let digit ← getDigit x i
      if digit ≠ 0 then return true else anyNonzero x (i + 1) n

/-- The flag `roundDown` of `JudgeRoundDown`. -/
def losesBits (x : BigInt) (digitMove : Nat) (bitsMove : UInt32) : Except BigIntFault Bool := do
  let stamp := ((1 : UInt32) <<< bitsMove) - 1
  let digit ← getDigit x.digits digitMove
  if digit &&& stamp ≠ 0 then return true else anyNonzero x.digits 0 digitMove

/-- `JudgeRoundDown`: the new `needLen` and `roundDown`. -/
def judgeRoundDown (x : BigInt) (digitMove : Nat) (bitsMove : UInt32) (needLen : Nat) :
    Except BigIntFault (Nat × Bool) := do
  let roundDown ← losesBits x digitMove bitsMove
  if roundDown ∧ bitsMove = 0 then
    let highBits ← getDigit x.digits (x.length - 1)
    return (if ~~~highBits = 0 then needLen + 1 else needLen, roundDown)
  else
    return (needLen, roundDown)

/-- The variables `needLen` and `roundDown` of `RightShiftHelper`. -/
def rightShiftLength (x : BigInt) (digitMove : Nat) (bitsMove : UInt32) :
    Except BigIntFault (Nat × Bool) :=
  if x.sign then judgeRoundDown x digitMove bitsMove (x.length - digitMove)
  else .ok (x.length - digitMove, false)

/-- `RightShiftHelper`. -/
def rightShiftHelper (x y : BigInt) : Except BigIntFault BigInt := do
  let moveNum ← getDigit y.digits 0
  let digitMove := moveNum.toNat / dateBits
  let bitsMove := UInt32.ofNat (moveNum.toNat % dateBits)
  if y.length > 1 ∨ moveNum.toNat > maxBits ∨ x.length ≤ digitMove then
    returnIfRightShiftOverMax x.sign
  else
    let need ← rightShiftLength x digitMove bitsMove
    let bigint ← createBigint need.1
    let digits ← rightShift bigint.digits (fun _ => x.digits) digitMove bitsMove
    let bigint ← rightTruncate { bigint with digits }
    if !x.sign then return bigint
    else if need.2 then bitwiseAddOne { bigint with sign := true }
    else return { bigint with sign := true }

/-- `SignedRightShift`. -/
def signedRightShift (x y : BigInt) : Except BigIntFault BigInt :=
  if x.isZero ∨ y.isZero then .ok x
  else if y.sign then leftShiftHelper x y
  else rightShiftHelper x y

/-- `LeftShift`. -/
def leftShift (x y : BigInt) : Except BigIntFault BigInt :=
  if y.sign then rightShiftHelper x y else leftShiftHelper x y

/-! ## Exponentiation -/

/-- The variables of the loop of `Exponentiate`; `result` is null before the first one bit. -/
structure Power where
  result : Option BigInt
  temp : BigInt
  expValue : UInt32

/-- The update of `result` where the current bit of the exponent is one. -/
def timesTemp (result : Option BigInt) (temp : BigInt) : Except BigIntFault BigInt :=
  match result with
  | none => .ok temp
  | some result => multiply result temp

/-- A round of the loop of `Exponentiate`. -/
def powerRound (s : Power) : Except BigIntFault Power := do
  let temp ← multiply s.temp s.temp
  if s.expValue &&& 1 ≠ 0 then
    let result ← timesTemp s.result temp
    return ⟨some result, temp, s.expValue >>> 1⟩
  else
    return ⟨s.result, temp, s.expValue >>> 1⟩

/-- The powers of 2 and -2. -/
def powerOfTwo (sign : Bool) (expValue : UInt32) : Except BigIntFault BigInt := do
  let needLength := expValue.toNat / dateBits + 1
  let bigint ← createBigint needLength
  let digits ← setDigit bigint.digits (needLength - 1) (1 <<< (expValue % 32))
  return ⟨if sign then expValue &&& 1 != 0 else bigint.sign, digits⟩

/-- `Exponentiate`. -/
def exponentiate (base exponent : BigInt) : Except BigIntFault BigInt :=
  if exponent.sign then .error (.rangeError "Exponent must be positive")
  else if exponent.isZero then int32ToBigInt 1
  else if base.isZero then .ok base
  else do
    let expValue ← getDigit exponent.digits 0
    let baseValue ← getDigit base.digits 0
    if base.length = 1 ∧ baseValue = 1 then
      if base.sign ∧ expValue &&& 1 = 0 then unaryMinus base else return base
    else if exponent.length > 1 then .error sizeExceeded
    else if base.length = 1 ∧ baseValue = 2 then powerOfTwo base.sign expValue
    else
      let start : Power := ⟨if expValue &&& 1 ≠ 0 then some base else none, base, expValue >>> 1⟩
      let power ← whileLoop .unfinished (fun s => s.expValue != 0) powerRound (dateBits + 1) start
      match power.result with
      | some result => return result
      | none => .error .invalidAccess

/-! ## Division -/

/-- `base::CountLeadingZeros`. -/
def countLeadingZeros (value : UInt32) : UInt32 :=
  if value = 0 then 32 else UInt32.ofNat (31 - value.toNat.log2)

/-- A round of the two correction loops of `DivideAndRemainder`, on the quotient and
    `tempRemainder`. -/
def halfRound (highDivisor lowDivisor lowDividend : UInt32) (s : UInt32 × UInt32) :
    UInt32 × UInt32 ⊕ UInt32 × UInt32 :=
  if s.1 ≥ halfUint32Value ∨ s.1 * lowDivisor > s.2 * halfUint32Value + lowDividend then
    if s.2 + highDivisor ≥ halfUint32Value then .inr (s.1 - 1, s.2 + highDivisor)
    else .inl (s.1 - 1, s.2 + highDivisor)
  else .inr s

/-- A bound on the rounds of the correction loops, which add to a half digit until it is none. -/
def halfRounds : Nat := 2 ^ 16

/-- One half of the quotient of `DivideAndRemainder`. -/
def halfQuotient (dividend highDivisor lowDivisor lowDividend : UInt32) :
    Except BigIntFault UInt32 := do
  let quotient := dividend / highDivisor
  let s ← finished (iter (halfRound highDivisor lowDivisor lowDividend) halfRounds
    (quotient, dividend - quotient * highDivisor))
  return s.1

/-- `highDividend` after the operands are moved to the left. -/
def alignHigh (highBit lowBit leadingZeros : UInt32) : UInt32 :=
  if leadingZeros ≠ 0 then (highBit <<< leadingZeros) ||| (lowBit >>> (32 - leadingZeros))
  else highBit

/-- `DivideAndRemainder`: the quotient and the remainder of two digits by one. -/
def divideAndRemainder (highBit lowBit divisor : UInt32) :
    Except BigIntFault (UInt32 × UInt32) := do
  let leadingZeros := countLeadingZeros divisor
  let divisor := divisor <<< leadingZeros
  let lowDividend := lowBit <<< leadingZeros
  let highDividend := alignHigh highBit lowBit leadingZeros
  let highDivisor := divisor >>> halfDateBits
  let lowDivisor := divisor &&& halfDateMask
  let lowDividend1 := lowDividend >>> halfDateBits
  let lowDividend2 := lowDividend &&& halfDateMask
  let highQuotient ← halfQuotient highDividend highDivisor lowDivisor lowDividend1
  let tempLowDividend := highDividend * halfUint32Value + lowDividend1 - highQuotient * divisor
  let lowQuotient ← halfQuotient tempLowDividend highDivisor lowDivisor lowDividend2
  let remainder :=
    (tempLowDividend * halfUint32Value + lowDividend2 - lowQuotient * divisor) >>> leadingZeros
  return (highQuotient * halfUint32Value + lowQuotient, remainder)

/-- `FormatLeftShift`. -/
def formatLeftShift (shift : UInt32) (bigint : BigInt) (neeedAddOne : Bool) :
    Except BigIntFault BigInt :=
  if !neeedAddOne ∧ shift = 0 then .ok bigint
  else do
    let result ← createBigint (if neeedAddOne then bigint.length + 1 else bigint.length)
    if shift = 0 then
      return { result with digits := bigint.digits ++ result.digits.drop bigint.length }
    else
      let digits ← shiftLeftDigits shift bigint.digits 0 result.digits
      return { result with digits }

/-- `UnformattedRightShift`. -/
def unformattedRightShift (bigint : BigInt) (shift : UInt32) : Except BigIntFault BigInt := do
  let digits ← rightShift bigint.digits id 0 shift
  return { bigint with digits }

/-- The variables of the first loop of `SpecialMultiplyAndSub`. -/
structure Product where
  digits : List UInt32
  lastCarry : UInt32
  lastHigh : UInt32

/-- A round of the first loop of `SpecialMultiplyAndSub`. -/
def productRound (v : List UInt32) (q : UInt32) (i : Nat) (s : Product) :
    Except BigIntFault Product := do
  let value ← getDigit v i
  let product := mul value q
  let withHigh := addHelper product.2 s.lastHigh 0
  let withCarry := addHelper withHigh.1 s.lastCarry withHigh.2
  let digits ← setDigit s.digits i withCarry.1
  return ⟨digits, withCarry.2, product.1⟩

/-- A round of a loop that combines the digits of `u` from `pos` on with those of `v`, in place. -/
def windowRound (helper : UInt32 → UInt32 → UInt32 → UInt32 × UInt32) (v : List UInt32)
    (pos i : Nat) (s : Carried) : Except BigIntFault Carried := do
  let uDigit ← getDigit s.digits (pos + i)
  let vDigit ← getDigit v i
  let first := helper uDigit vDigit 0
  let second := helper first.1 s.carry first.2
  let digits ← setDigit s.digits (pos + i) second.1
  return ⟨digits, second.2⟩

/-- `SpecialMultiplyAndSub`: the digits of `u` and of `qv`, and whether a borrow is left over. -/
def specialMultiplyAndSub (u v : List UInt32) (q : UInt32) (qv : List UInt32) (pos : Nat) :
    Except BigIntFault (List UInt32 × List UInt32 × Bool) := do
  let product ← forRange (productRound v q) 0 v.length ⟨qv, 0, 0⟩
  let qv ← setDigit product.digits v.length (product.lastHigh + product.lastCarry)
  let difference ← forRange (windowRound subHelper qv pos) 0 qv.length ⟨u, 0⟩
  return (difference.digits, qv, difference.carry > 0)

/-- `SpecialAdd`: the digits of `u` and the last carry. -/
def specialAdd (u v : List UInt32) (pos : Nat) : Except BigIntFault Carried :=
  forRange (windowRound addHelper v pos) 0 v.length ⟨u, 0⟩

/-- A round of the loop of `ImproveAccuracy`, on `q` and `UHighest`. -/
def accuracyRound (vHighest vHighestNext uHighestNext : UInt32) (s : UInt32 × UInt32) :
    UInt32 × UInt32 ⊕ UInt32 :=
  let product := mul s.1 vHighestNext
  if product.1 > s.2 ∨ (product.1 = s.2 ∧ product.2 > uHighestNext) then
    if s.2 + vHighest < vHighest then .inr (s.1 - 1) else .inl (s.1 - 1, s.2 + vHighest)
  else .inr s.1

/-- A bound on the rounds of that loop, which adds to a `uint32_t` until it overflows. -/
def accuracyRounds : Nat := 2 ^ 32

/-- `ImproveAccuracy`. -/
def improveAccuracy (vHighest vHighestNext uHighest uHighestNext q : UInt32) :
    Except BigIntFault UInt32 :=
  finished (iter (accuracyRound vHighest vHighestNext uHighestNext) accuracyRounds (q, uHighest))

/-- The quotient digit that `DivideAndRemainderWithBigintDivisor` tries at position `i`. -/
def estimateDigit (u v : List UInt32) (divisorLen : Nat) (vHighest : UInt32) (i : Nat) :
    Except BigIntFault UInt32 := do
  let currentUHighest ← getDigit u (i + divisorLen)
  let uNext ← getDigit u (i + divisorLen - 1)
  let (q, r) ← divideAndRemainder currentUHighest uNext vHighest
  if vHighest = currentUHighest then
    return 0xFFFFFFFF
  else
    let vHighestNext ← getDigit v (divisorLen - 2)
    let currentUHighestNext ← getDigit u (i + divisorLen - 2)
    improveAccuracy vHighest vHighestNext r currentUHighestNext q

/-- The digits of the handles of `DivideAndRemainderWithBigintDivisor`. -/
structure LongDivision where
  u : List UInt32
  qv : List UInt32
  quotient : Option (List UInt32)

/-- The digits of `u` are given back once where `q` was too large. -/
def addBack (u v : List UInt32) (divisorLen i : Nat) (q : UInt32) (borrow : Bool) :
    Except BigIntFault (List UInt32 × UInt32) :=
  if borrow then do
    let s ← specialAdd u v i
    let top ← getDigit s.digits (i + divisorLen)
    let digits ← setDigit s.digits (i + divisorLen) (top + s.carry)
    return (digits, q - 1)
  else .ok (u, q)

/-- The quotient digit is stored where the caller asked for the quotient. -/
def storeQuotient (quotient : Option (List UInt32)) (i : Nat) (q : UInt32) :
    Except BigIntFault (Option (List UInt32)) :=
  match quotient with
  | none => .ok none
  | some digits => do
      let digits ← setDigit digits i q
      return some digits

/-- A round of the loop of `DivideAndRemainderWithBigintDivisor`. -/
def longDivisionRound (v : List UInt32) (divisorLen : Nat) (vHighest : UInt32) (i : Nat)
    (s : LongDivision) : Except BigIntFault LongDivision := do
  let q ← estimateDigit s.u v divisorLen vHighest i
  let (u, qv, borrow) ← specialMultiplyAndSub s.u v q s.qv i
  let (u, q) ← addBack u v divisorLen i q borrow
  let quotient ← storeQuotient s.quotient i q
  return ⟨u, qv, quotient⟩

/-- The handle `quotient`, which stays null where the remainder is asked for. -/
def newQuotient (wantRemainder : Bool) (length : Nat) :
    Except BigIntFault (Option (List UInt32)) :=
  if wantRemainder then .ok none
  else do
    let quotient ← createBigint length
    return some quotient.digits

/-- `DivideAndRemainderWithBigintDivisor`: the quotient, or the remainder where the handle
    `remainder` is not null. -/
def divideAndRemainderWithBigintDivisor (dividend divisor : BigInt) (wantRemainder : Bool) :
    Except BigIntFault BigInt := do
  let divisorLen := divisor.length
  let quotientLen := dividend.length - divisorLen
  let quotient ← newQuotient wantRemainder (quotientLen + 1)
  let top ← getDigit divisor.digits (divisorLen - 1)
  let leadingZeros := countLeadingZeros top
  let v ← formatLeftShift leadingZeros divisor false
  let u ← formatLeftShift leadingZeros dividend true
  let qv ← createBigint (divisorLen + 1)
  let vHighest ← getDigit v.digits (divisorLen - 1)
  let s ← forDown (longDivisionRound v.digits divisorLen vHighest) (quotientLen + 1)
    ⟨u.digits, qv.digits, quotient⟩
  match s.quotient with
  | some digits => return ⟨false, digits⟩
  | none => unformattedRightShift { u with digits := s.u } leadingZeros

/-- The variables of the loops of `DivideAndRemainderWithUint32Divisor`. -/
structure ShortDivision where
  r : UInt32
  quotient : Option (List UInt32)

/-- A round of the loops of `DivideAndRemainderWithUint32Divisor`. -/
def shortDivisionRound (dividend : List UInt32) (divisor : UInt32) (i : Nat) (s : ShortDivision) :
    Except BigIntFault ShortDivision := do
  let digit ← getDigit dividend i
  let (q, r) ← divideAndRemainder s.r digit divisor
  let quotient ← storeQuotient s.quotient i q
  return ⟨r, quotient⟩

/-- `DivideAndRemainderWithUint32Divisor`. -/
def divideAndRemainderWithUint32Divisor (dividend : BigInt) (divisor : UInt32)
    (wantRemainder : Bool) : Except BigIntFault BigInt := do
  let quotient ← newQuotient wantRemainder dividend.length
  let s ← forDown (shortDivisionRound dividend.digits divisor) dividend.length ⟨0, quotient⟩
  match s.quotient with
  | some digits => return ⟨false, digits⟩
  | none => uint32ToBigInt s.r

/-- The choice of the algorithm in `Divide` and `Remainder`. -/
def divideDigits (x y : BigInt) (wantRemainder : Bool) : Except BigIntFault BigInt :=
  if y.isUint32 then do
    let divisor ← getDigit y.digits 0
    divideAndRemainderWithUint32Divisor x divisor wantRemainder
  else divideAndRemainderWithBigintDivisor x y wantRemainder

/-- `Divide`. -/
def divide (x y : BigInt) : Except BigIntFault BigInt :=
  if y.isZero then .error (.rangeError "Division by zero")
  else do
    let sign := x.sign != y.sign
    let order ← absolutelyCompare x y
    if order = .less then int32ToBigInt 0
    else if order = .equal then
      let quotient ← int32ToBigInt 1
      return { quotient with sign }
    else if y.isUint32 ∧ y.digits[0]? = some 1 then
      if sign = x.sign then return x else unaryMinus x
    else
      let quotient ← divideDigits x y false
      rightTruncate { quotient with sign }

/-- `Remainder`. -/
def remainder (n d : BigInt) : Except BigIntFault BigInt :=
  if d.isZero then .error (.rangeError "Division by zero")
  else do
    let order ← absolutelyCompare n d
    if n.isZero ∨ order = .less then return n
    else if order = .equal ∨ (d.isUint32 ∧ d.digits[0]? = some 1) then int32ToBigInt 0
    else
      let remainder ← divideDigits n d true
      rightTruncate { remainder with sign := n.sign }

end BigInt

end ArkRuntime
