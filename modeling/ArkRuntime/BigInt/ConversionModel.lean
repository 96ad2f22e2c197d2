import ArkRuntime.BigInt.Model

/-!
# The conversions of `js_bigint.cpp`

BigInts from numbers, from 64-bit words and from numerals, numerals from BigInts, and the reductions
modulo a power of two. A double is its bit pattern. Strings are lists of characters; `dp` and the
strings are read with a check, as digits are.
-/

namespace ArkRuntime

/-- A `JSTaggedValue` that is a number: an `int` or the bit pattern of a `double`. -/
inductive JSNumber where
  | int (number : Int32)
  | double (bits : UInt64)
  deriving DecidableEq, Repr

namespace JSNumber

def doubleSignificandSize : Nat := 52
def doubleExponentBias : Nat := 0x3FF
def doubleSignificandMask : UInt64 := 0x000FFFFFFFFFFFFF
def doubleHiddenBit : UInt64 := (1 : UInt64) <<< 52

/-- Bits 62-52 of a double. -/
def exponentField (bits : UInt64) : UInt64 := (bits >>> 52) &&& 0x7FF

/-- `floor(abs(d)) == abs(d)` for a finite double `d`: the bits of the significand below the units
    are zero. -/
def isIntegral (bits : UInt64) : Bool :=
  let exponent := (exponentField bits).toNat
  let significand := (bits &&& doubleSignificandMask).toNat
  if exponent < doubleExponentBias then exponent = 0 && significand = 0
  else significand % 2 ^ (doubleSignificandSize - (exponent - doubleExponentBias)) = 0

/-- `JSTaggedValue::IsInteger` of a number. -/
def isInteger : JSNumber → Bool
  | int _ => true
  | double bits => exponentField bits != 0x7FF && isIntegral bits

/-- The double of an `int`. -/
def doubleOfInt (number : Int32) : UInt64 :=
  let magnitude := number.toInt.natAbs
  let digits := magnitude.log2
  if magnitude = 0 then 0
  else (if number < 0 then (1 : UInt64) <<< 63 else 0) |||
    (UInt64.ofNat (digits + doubleExponentBias) <<< 52) |||
    (UInt64.ofNat (magnitude * 2 ^ (doubleSignificandSize - digits)) &&& doubleSignificandMask)

/-- `GetNumber`. -/
def getNumber : JSNumber → UInt64
  | int number => doubleOfInt number
  | double bits => bits

end JSNumber

namespace BigInt

/-! ## From machine integers -/

/-- `Uint64ToBigInt`. -/
def uint64ToBigInt (number : UInt64) : Except BigIntFault BigInt := do
  let bigint ← createBigint 2
  let digits ← setDigit bigint.digits 0 (number &&& 0xffffffff).toUInt32
  let digits ← setDigit digits 1 ((number >>> 32) &&& 0xffffffff).toUInt32
  rightTruncate { bigint with digits }

/-- `Int64ToBigInt`. -/
def int64ToBigInt (number : Int64) : Except BigIntFault BigInt := do
  let sign := decide (number < 0)
  let value := if sign then (-(number + 1)).toUInt64 + 1 else number.toUInt64
  let bigint ← uint64ToBigInt value
  rightTruncate { bigint with sign }

/-- A word of the array that `CreateBigWords` is given. -/
def readWord (words : List UInt64) (index : Nat) : Except BigIntFault UInt64 :=
  match words[index]? with
  | some word => .ok word
  | none => .error .invalidAccess

/-- A round of the loop of `CreateBigWords`. -/
def wordRound (words : List UInt64) (index : Nat) (digits : List UInt32) :
    Except BigIntFault (List UInt32) := do
  let word ← readWord words index
  let digits ← setDigit digits (2 * index) (word &&& 0xffffffff).toUInt32
  setDigit digits (2 * index + 1) ((word >>> 32) &&& 0xffffffff).toUInt32

/-- `CreateBigWords`; `needLen` is a `uint32_t`. -/
def createBigWords (sign : Bool) (size : UInt32) (words : List UInt64) :
    Except BigIntFault BigInt :=
  if size = 0 then uint64ToBigInt 0
  else
    let needLen := size * 2
    if needLen.toNat > maxSize then .error sizeExceeded
    else do
      let bigint ← createBigint needLen.toNat
      let digits ← forRange (wordRound words) 0 size.toNat bigint.digits
      rightTruncate ⟨sign, digits⟩

/-! ## From doubles -/

/-- The variables of the loop of `NumberToBigInt`. -/
structure Significand where
  digits : List UInt32
  mantissa : UInt64
  isFirstInto : Bool

/-- A round of the loop of `NumberToBigInt`; `leftover` is only read in the first one. -/
def significandRound (integerDigits : UInt64) (index : Nat) (s : Significand) :
    Except BigIntFault Significand :=
  if s.isFirstInto then do
    let leftover := UInt64.ofNat JSNumber.doubleSignificandSize - integerDigits % 32
    let digits ← setDigit s.digits index (s.mantissa >>> leftover).toUInt32
    return ⟨digits, s.mantissa <<< (64 - leftover), false⟩
  else do
    let digits ← setDigit s.digits index (s.mantissa >>> 32).toUInt32
    return ⟨digits, s.mantissa <<< 32, false⟩

/-- The error of `NumberToBigInt`. -/
def notAnInteger : BigIntFault :=
  .rangeError "The number cannot be converted to a BigInt because it is not an integer"

/-- `NumberToBigInt`. -/
def numberToBigInt (number : JSNumber) : Except BigIntFault BigInt :=
  if !number.isInteger then .error notAnInteger
  else
    let bits := number.getNumber
    if bits <<< 1 = 0 then int32ToBigInt 0
    else do
      let integerDigits := JSNumber.exponentField bits - UInt64.ofNat JSNumber.doubleExponentBias
      let mayNeedLen := (integerDigits / 32 + 1).toUInt32
      let bigint ← createBigint mayNeedLen.toNat
      let mantissa := (bits &&& JSNumber.doubleSignificandMask) ||| JSNumber.doubleHiddenBit
      let s ← forDown (significandRound integerDigits) mayNeedLen.toNat
        ⟨bigint.digits, mantissa, true⟩
      rightTruncate ⟨bits >>> 63 != 0, s.digits⟩

/-! ## Numerals -/

/-- The array `dp`, with the zero at its end. -/
def dp : List Char := "0123456789abcdefghijklmnopqrstuvwxyz\x00".toList

def readDp (index : UInt32) : Except BigIntFault Char :=
  match dp[index.toNat]? with
  | some digit => .ok digit
  | none => .error .invalidAccess

/-- `CharToInt`. -/
def charToInt (c : Char) : UInt32 :=
  if '0' ≤ c ∧ c ≤ '9' then c.val - '0'.val
  else if 'A' ≤ c ∧ c ≤ 'Z' then c.val - 'A'.val + 10
  else if 'a' ≤ c ∧ c ≤ 'z' then c.val - 'a'.val + 10
  else 0

/-- The loop of `Division`, which replaces each character by a digit of the quotient. -/
def divideChars (conversionToRadix currentRadix : UInt32) :
    List Char → UInt32 → Except BigIntFault (List Char × UInt32)
  | [], remain => .ok ([], remain)
  | c :: num, remain => do
      let temp := currentRadix * remain + charToInt c
      let digit ← readDp (temp / conversionToRadix)
      let (quotient, remain) ← divideChars conversionToRadix currentRadix num
        (temp % conversionToRadix)
      return (digit :: quotient, remain)

/-- `Division`: the quotient without leading zeros, and `remain`. -/
def division (num : List Char) (conversionToRadix currentRadix : UInt32) :
    Except BigIntFault (List Char × UInt32) := do
  let (quotient, remain) ← divideChars conversionToRadix currentRadix num 0
  return (quotient.dropWhile (· == '0'), remain)

/-- A round of the loop of `Conversion`, on `newNum` and `res`. -/
def conversionRound (conversionToRadix currentRadix : UInt32) (s : List Char × List Char) :
    Except BigIntFault (List Char × List Char) := do
  let (newNum, remain) ← division s.1 conversionToRadix currentRadix
  let digit ← readDp remain
  return (newNum, digit :: s.2)

/-- A bound on the rounds of that loop, which divides a number by two or more. -/
def conversionRounds (num : List Char) : Nat := 32 * (num.length + 1)

/-- `BigIntHelper::Conversion`. -/
def conversion (num : List Char) (conversionToRadix currentRadix : UInt32) :
    Except BigIntFault (List Char) := do
  let s ← whileLoop .unfinished (fun s : List Char × List Char => !s.1.isEmpty)
    (conversionRound conversionToRadix currentRadix) (conversionRounds num) (num, [])
  return s.2

/-- The digit that binary characters are packed into, after the bits `val`. -/
def packBits (val : UInt32) (bits : List Char) : UInt32 :=
  bits.foldl (fun val c => (val <<< 1) ||| (c.val - '0'.val)) val

/-- A round of the loop of `SetBigInt` over the full words, on the digits and the characters that
    are still to be packed. -/
def packRound (index : Nat) (s : List UInt32 × List Char) :
    Except BigIntFault (List UInt32 × List Char) := do
  let digits ← setDigit s.1 index (packBits 0 (s.2.take dateBits))
  return (digits, s.2.drop dateBits)

/-- The partial word at the front. -/
def packFirst (digits : List UInt32) (binaryStr : List Char) (len mod : Nat) :
    Except BigIntFault (List UInt32) :=
  if mod = 0 then .ok digits else setDigit digits len (packBits 0 (binaryStr.take mod))

/-- The end of `SetBigInt`: the BigInt of binary characters. -/
def packBinary (sign : Bool) (binaryStr : List Char) : Except BigIntFault BigInt := do
  let len := binaryStr.length / dateBits
  let mod := binaryStr.length % dateBits
  let bigint ← createBigint (if mod = 0 then len else len + 1)
  let digits ← packFirst bigint.digits binaryStr len mod
  let s ← forDown packRound len (digits, binaryStr.drop mod)
  rightTruncate ⟨sign, s.1⟩

/-- The characters of `SetBigInt` in base two. -/
def toBinary (num : List Char) (currentRadix : UInt32) : Except BigIntFault (List Char) :=
  if currentRadix ≠ 2 then conversion num 2 currentRadix else .ok num

/-- `BigIntHelper::SetBigInt`. -/
def setBigInt (numStr : List Char) (currentRadix : UInt32) : Except BigIntFault BigInt := do
  let flag := decide (numStr.head? = some '-')
  let binaryStr ← toBinary (if flag then numStr.drop 1 else numStr) currentRadix
  packBinary flag binaryStr

/-- The inner loop of `GetBinary`: the characters of a digit, in front of those of the lower ones. -/
def pushBits : Nat → UInt32 → List Char → List Char
  | 0, _, res => res
  | bityLen + 1, val, res =>
      pushBits bityLen (val >>> 1) ((if val &&& 1 = 1 then '1' else '0') :: res)

/-- `BigIntHelper::DeZero`. -/
def deZero (a : List Char) : List Char :=
  let rest := a.dropWhile (· == '0')
  if rest.isEmpty then ['0'] else rest

/-- `BigIntHelper::GetBinary`, which writes its string from the end to the front. -/
def getBinary (bigint : BigInt) : List Char :=
  deZero (bigint.digits.foldl (fun res val => pushBits dateBits val res) [])

/-- `ToStdString`. -/
def toStdString (bigint : BigInt) (conversionToRadix : UInt32) : Except BigIntFault (List Char) := do
  let result ← conversion (getBinary bigint) conversionToRadix 2
  return if bigint.sign then '-' :: result else result

/-! ## Reduction modulo a power of two -/

def kMaxLengthBits : Int64 := (1 : Int64) <<< 30

/-- `FloorMod`. -/
def floorMod (leftVal rightVal : BigInt) : Except BigIntFault BigInt := do
  let rest ← remainder leftVal rightVal
  if leftVal.sign ∧ !rest.isZero then add rest rightVal else return rest

/-- `AsUintN`, where `bit` is the value of the number `bits` as an `int64_t`. -/
def asUintN (bit : Int64) (bigint : BigInt) : Except BigIntFault BigInt :=
  if bit = 0 then int32ToBigInt 0
  else if bigint.isZero then .ok bigint
  else do
    let exponent ← uint64ToBigInt bit.toUInt64
    let base ← int64ToBigInt 2
    if bit ≥ kMaxLengthBits ∧ !bigint.sign then return bigint
    else
      let tValue ← exponentiate base exponent
      floorMod bigint tValue

/-- `AsintN`. -/
def asintN (bit : Int64) (bigint : BigInt) : Except BigIntFault BigInt :=
  if bit = 0 then int32ToBigInt 0
  else if bigint.isZero then .ok bigint
  else do
    let exp ← int64ToBigInt bit
    let exponent ← int64ToBigInt (bit - 1)
    let base ← int64ToBigInt 2
    if bit ≥ kMaxLengthBits ∧ !bigint.sign then return bigint
    else
      let tValue ← exponentiate base exp
      let modValue ← floorMod bigint tValue
      let resValue ← exponentiate base exponent
      let order ← compare resValue modValue
      if order ≠ .great then subtract modValue tValue else return modValue

end BigInt

end ArkRuntime
