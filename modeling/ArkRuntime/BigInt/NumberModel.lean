import ArkRuntime.KeyHash.Model

/-!
# Numbers from BigInts

`BigIntToNumber` and `CompareWithNumber` of `js_bigint.cpp`. A double is its bit pattern; `uint64_t`
arithmetic is that of `UInt64`.
-/

namespace ArkRuntime

namespace BigInt

/-! ## `BigIntToNumber` -/

/-- `POSITIVE_INFINITY`, or its negative. -/
def infinity (negative : Bool) : JSNumber :=
  .double (if negative then 0xFFF0000000000000 else 0x7FF0000000000000)

/-- `CalculateNumber`. -/
def calculateNumber (sign mantissa exponent : UInt64) : JSNumber :=
  let exponent := (exponent + UInt64.ofNat JSNumber.doubleExponentBias) <<< 52
  .double (sign ||| exponent ||| mantissa)

/-- `Rounding`. -/
def rounding (sign mantissa exponent : UInt64) (needRound : Bool) : JSNumber :=
  if needRound || mantissa &&& 1 == 1 then
    let mantissa := mantissa + 1
    if mantissa >>> 52 != 0 then
      let exponent := exponent + 1
      if exponent > UInt64.ofNat JSNumber.doubleExponentBias then infinity (sign != 0)
      else calculateNumber sign 0 exponent
    else calculateNumber sign mantissa exponent
  else calculateNumber sign mantissa exponent

/-- The variables of `BigIntToNumber` that change while the mantissa is padded. -/
structure Padding where
  mantissa : UInt64
  remainMantissaBits : Int
  index : Int
  digit : UInt32

/-- The mantissa of the top digit. -/
def headMantissa (bigintHead : UInt32) (needMoveBit : Nat) : UInt64 :=
  if needMoveBit = 64 then 0 else (bigintHead.toUInt64 <<< UInt64.ofNat needMoveBit) >>> 12

/-- The padding with a whole digit. -/
def padWhole (s : Padding) : Padding :=
  if (dateBits : Int) ≤ s.remainMantissaBits then
    { s with
      mantissa := s.mantissa ||| s.digit.toUInt64 <<< UInt64.ofNat (s.remainMantissaBits - dateBits).toNat
      remainMantissaBits := s.remainMantissaBits - dateBits
      index := s.index - 1 }
  else s

/-- The padding with the upper bits of a digit. -/
def padPart (bigint : BigInt) (s : Padding) : Except BigIntFault Padding :=
  if 0 < s.remainMantissaBits ∧ 0 ≤ s.index then do
    let digit ← getDigit bigint.digits s.index.toNat
    return { s with
      digit
      mantissa := s.mantissa ||| digit.toUInt64 >>> UInt64.ofNat (dateBits - s.remainMantissaBits).toNat
      remainMantissaBits := s.remainMantissaBits - dateBits }
  else .ok s

/-- The loop of `BigIntToNumber`: is a digit below `index` not zero? -/
def nonzeroBelow (digits : List UInt32) : Nat → Except BigIntFault Bool
  | 0 => .ok false
  | index + 1 => do
      let digit ← getDigit digits index
      if digit ≠ 0 then return true else nonzeroBelow digits index

/-- The end of `BigIntToNumber`, from `temp` on. -/
def roundDigit (bigint : BigInt) (sign mantissa exponent : UInt64) (digit : UInt32)
    (remainDigitBits : Nat) (index : Int) : Except BigIntFault JSNumber :=
  let temp := ((1 : UInt64) <<< UInt64.ofNat (remainDigitBits - 1)).toUInt32
  if digit &&& temp = 0 then .ok (calculateNumber sign mantissa exponent)
  else if digit &&& (temp - 1) ≠ 0 then .ok (rounding sign mantissa exponent true)
  else do
    let needRound ← nonzeroBelow bigint.digits index.toNat
    return rounding sign mantissa exponent needRound

/-- `BigIntToNumber` after the mantissa is filled. -/
def roundPadded (bigint : BigInt) (sign exponent : UInt64) (s : Padding) :
    Except BigIntFault JSNumber :=
  if 0 < s.remainMantissaBits then .ok (calculateNumber sign s.mantissa exponent)
  else if s.remainMantissaBits < 0 then
    roundDigit bigint sign s.mantissa exponent s.digit (-s.remainMantissaBits).toNat s.index
  else if s.index ≤ 0 then .ok (calculateNumber sign s.mantissa exponent)
  else do
    let digit ← getDigit bigint.digits s.index.toNat
    roundDigit bigint sign s.mantissa exponent digit dateBits (s.index - 1)

/-- `BigIntToNumber`. -/
def bigIntToNumber (bigint : BigInt) : Except BigIntFault JSNumber :=
  if bigint.isZero then .ok (.int 0)
  else do
    let bigintLen := bigint.length
    let bigintHead ← getDigit bigint.digits (bigintLen - 1)
    let leadingZeros := (countLeadingZeros bigintHead).toNat
    let bigintBitLen := bigintLen * dateBits - leadingZeros
    if bigintBitLen > JSNumber.doubleExponentBias + 1 then return infinity bigint.sign
    else
      let sign := if bigint.sign then (1 : UInt64) <<< 63 else 0
      let needMoveBit := leadingZeros + dateBits + 1
      let mantissa := headMantissa bigintHead needMoveBit
      let exponent := UInt64.ofNat (bigintBitLen - 1)
      if bigintLen - 1 > 0 then
        let index := bigintLen - 2
        let digit ← getDigit bigint.digits index
        let s ← padPart bigint (padWhole ⟨mantissa, (needMoveBit : Int) - 12, index, digit⟩)
        roundPadded bigint sign exponent s
      else return calculateNumber sign mantissa exponent

/-! ## `CompareWithNumber` -/

/-- `CompareToBitsLen`: its result, and `leadingZeros`. -/
def compareToBitsLen (bigint : BigInt) (numBitLen : Int) : Except BigIntFault (Int × Nat) := do
  let bigintLen := bigint.length
  let bigintHead ← getDigit bigint.digits (bigintLen - 1)
  let leadingZeros := (countLeadingZeros bigintHead).toNat
  let bigintBitLen := ((bigintLen * dateBits : Nat) : Int) - leadingZeros
  if bigintBitLen > numBitLen then return (if bigint.sign then 0 else 1, leadingZeros)
  else if bigintBitLen < numBitLen then return (if bigint.sign then 1 else 0, leadingZeros)
  else return (-1, leadingZeros)

/-- The loop of `CompareWithNumber` over the digits below an index, and what follows it. `leftover` is only
    read in the first round. -/
def compareDigits (bigint : BigInt) (leftover : UInt64) :
    Nat → Bool → UInt64 → Except BigIntFault ComparisonResult
  | 0, _, mantissa =>
      if mantissa ≠ 0 then .ok (if bigint.sign then .great else .less) else .ok .equal
  | index + 1, isFirstInto, mantissa => do
      let bigintNum ← getDigit bigint.digits index
      let doubleNum := (if isFirstInto then mantissa >>> leftover else mantissa >>> 32).toUInt32
      let mantissa := if isFirstInto then mantissa <<< (64 - leftover) else mantissa <<< 32
      if bigintNum > doubleNum then return if bigint.sign then .less else .great
      else if bigintNum < doubleNum then return if bigint.sign then .great else .less
      else compareDigits bigint leftover index false mantissa

/-- `CompareWithNumber`. -/
def compareWithNumber (bigint : BigInt) (number : JSNumber) : Except BigIntFault ComparisonResult :=
  let num := number.getNumber
  let isZero := KeyHash.isZeroDouble num
  let numberSign := !KeyHash.isNaN num && KeyHash.signbit num && !isZero
  let positive := !KeyHash.isNaN num && !KeyHash.signbit num && !isZero
  if KeyHash.isNaN num then .ok .undefined
  else if JSNumber.exponentField num = 0x7FF then .ok (if !numberSign then .less else .great)
  else
    let integerDigits : Int := (JSNumber.exponentField num).toNat - JSNumber.doubleExponentBias
    let mantissa := (num &&& JSNumber.doubleSignificandMask) ||| JSNumber.doubleHiddenBit
    if !numberSign && bigint.sign then .ok .less
    else if numberSign && !bigint.sign then .ok .great
    else if bigint.isZero && isZero then .ok .equal
    else if bigint.isZero && positive then .ok .less
    else if integerDigits < 0 then .ok (if bigint.sign then .less else .great)
    else do
      let (res, leadingZeros) ← compareToBitsLen bigint (integerDigits + 1)
      if res = 0 then return .less
      else if res = 1 then return .great
      else
        let leftover := UInt64.ofNat (JSNumber.doubleSignificandSize - dateBits + leadingZeros + 1)
        compareDigits bigint leftover bigint.length true mantissa

end BigInt

end ArkRuntime
