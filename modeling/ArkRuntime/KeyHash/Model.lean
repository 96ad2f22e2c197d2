import ArkRuntime.BigInt.Compare
import ArkRuntime.BigInt.ConversionModel

/-!
# The hashes of keys and the equalities of `js_tagged_value-inl.h`

`LinkedHash::Hash`, `TaggedNode::Hash`, `JSAPILightWeightMap::Hash` and `JSAPILightWeightSet::Hash`
beside `SameValue` and `SameValueZero`. A hash may write the heap: a string keeps the hash of its
characters once it is known, and an object is given an identity hash the first time it is asked for.
-/

namespace ArkRuntime

namespace KeyHash

variable {β : Type}

/-! ## Doubles -/

/-- `std::isnan`. -/
def isNaN (bits : UInt64) : Bool :=
  JSNumber.exponentField bits == 0x7FF && bits &&& JSNumber.doubleSignificandMask != 0

/-- `std::signbit`. -/
def signbit (bits : UInt64) : Bool := bits >>> 63 != 0

/-- Both zeros. -/
def isZeroDouble (bits : UInt64) : Bool := bits <<< 1 == 0

/-- The operator `==` on doubles. -/
def doubleEq (a b : UInt64) : Bool :=
  !isNaN a && !isNaN b && (a == b || isZeroDouble a && isZeroDouble b)

/-- The integer part of a finite double. -/
def integerPart (bits : UInt64) : Int :=
  let exponent := (JSNumber.exponentField bits).toNat
  let significand := (bits &&& JSNumber.doubleSignificandMask).toNat +
    if exponent = 0 then 0 else JSNumber.doubleHiddenBit.toNat
  let magnitude := significand * 2 ^ exponent /
    2 ^ (JSNumber.doubleExponentBias + JSNumber.doubleSignificandSize)
  if signbit bits then -(magnitude : Int) else magnitude

/-- What the code is built on: `GetHash32`, and `static_cast<int32_t>` of a double that does not
    fit. -/
structure Platform where
  getHash32 : List UInt8 → UInt32
  castOutOfRange : UInt64 → Int32

/-- `static_cast<int32_t>`. -/
def Platform.castInt32 (platform : Platform) (bits : UInt64) : Int32 :=
  if JSNumber.exponentField bits = 0x7FF then platform.castOutOfRange bits
  else
    let part := integerPart bits
    if -2 ^ 31 ≤ part ∧ part < 2 ^ 31 then Int32.ofInt part else platform.castOutOfRange bits

/-- The double of a `uint32_t`. -/
def doubleOfUInt32 (number : UInt32) : UInt64 :=
  let magnitude := number.toNat
  let digits := magnitude.log2
  if magnitude = 0 then 0
  else (UInt64.ofNat (digits + JSNumber.doubleExponentBias) <<< 52) |||
    (UInt64.ofNat (magnitude * 2 ^ (JSNumber.doubleSignificandSize - digits)) &&&
      JSNumber.doubleSignificandMask)

/-! ## Tagged values -/

def tagMark : UInt64 := 0xFFFF000000000000
def tagHeapobjectMask : UInt64 := tagMark ||| 0x06
def doubleEncodeOffset : UInt64 := (1 : UInt64) <<< 48

/-- `IsImpureNaN`: the bits would break the encoding of a tagged double. -/
def isImpureNaN (bits : UInt64) : Bool := tagMark - doubleEncodeOffset ≤ bits

/-- A double that can be tagged. -/
@[ext]
structure Double where
  bits : UInt64
  pure : isImpureNaN bits = false
  deriving DecidableEq

/-- The special values, by name. -/
inductive Special where
  | hole
  | null
  | undefined
  | false_
  | true_
  | exception
  | optimizedOut
  deriving DecidableEq

def Special.value : Special → UInt64
  | hole => 0x05
  | null => 0x03
  | undefined => 0x02
  | false_ => 0x06
  | true_ => 0x07
  | exception => 0x0A
  | optimizedOut => 0x12

/-- A pointer that `IsHeapObject` accepts, by the bits of `TAG_HEAPOBJECT_MASK`. Zero is a hole. -/
@[ext]
structure Address where
  value : UInt64
  tagged : value &&& tagHeapobjectMask = 0
  notHole : value ≠ 0
  deriving DecidableEq

inductive TaggedKey where
  | int (number : Int32)
  | double (number : Double)
  | special (value : Special)
  | heapObject (address : Address)
  deriving DecidableEq

namespace TaggedKey

/-- `GetRawData`; a negative `int` is extended by its sign before it is tagged. -/
def getRawData : TaggedKey → UInt64
  | int number => number.toInt64.toUInt64 ||| tagMark
  | double number => number.bits + doubleEncodeOffset
  | special value => value.value
  | heapObject address => address.value

/-- `TryCastDoubleToInt32`. -/
def tryCastDoubleToInt32 (platform : Platform) (d : Double) : TaggedKey :=
  if !doubleEq (JSNumber.doubleOfInt (platform.castInt32 d.bits)) d.bits then double d
  else int (platform.castInt32 d.bits)

def isInt : TaggedKey → Bool
  | int _ => true
  | _ => false

/-- `ExtractNumber` of a value that `IsNumber` accepts. -/
def extractNumber : TaggedKey → Option UInt64
  | int number => some (JSNumber.doubleOfInt number)
  | double number => some number.bits
  | _ => none

end TaggedKey

/-! ## The heap -/

/-- What the hashes and the equalities read of a string. -/
structure EcmaString where
  data : List UInt16
  isUtf8 : Bool
  isInternString : Bool
  mixHashcode : UInt32

namespace EcmaString

def isIntegerMask : UInt32 := (1 : UInt32) <<< 31
def maxElementIndexLen : Nat := 10
def maxIntegerHashNumber : UInt32 := 0x3B9AC9FF

/-- `MixHashcode`. -/
def mix (hashcode : UInt32) (isInteger : Bool) : UInt32 :=
  if isInteger then hashcode ||| isIntegerMask else hashcode &&& ~~~isIntegerMask

def isDecimalDigitChar (c : UInt16) : Bool := 0x30 ≤ c && c ≤ 0x39

/-- The loop of `HashIntegerString` after the first digit. -/
def integerOf (num : UInt32) : List UInt16 → Option UInt32
  | [] => if num ≤ maxIntegerHashNumber then some num else none
  | c :: rest =>
    if isDecimalDigitChar c then integerOf (num * 10 + (c.toUInt32 - 0x30)) rest else none

/-- `HashIntegerString` with the seed zero. -/
def hashIntegerString : List UInt16 → Option UInt32
  | [] => none
  | c :: rest =>
    if isDecimalDigitChar c && c != 0x30 then
      (integerOf (c.toUInt32 - 0x30) rest).map (mix · true)
    else if rest.isEmpty && c == 0x30 then some (mix 0 true)
    else none

/-- `ComputeHashForData` with the seed zero. -/
def computeHashForData (data : List UInt16) : UInt32 :=
  data.foldl (fun hash c => (hash <<< 5) - hash + c.toUInt32) 0

/-- `ComputeHashcode`: the hash of a short decimal numeral is its number, if it is compressed. -/
def computeHashcode (string : EcmaString) : UInt32 :=
  if string.data = [] then mix 0 false
  else if string.isUtf8 && string.data.length < maxElementIndexLen then
    (hashIntegerString string.data).getD (mix (computeHashForData string.data) false)
  else mix (computeHashForData string.data) false

/-- `TryGetHashCode`. -/
def tryGetHashCode (string : EcmaString) : Option UInt32 :=
  if string.mixHashcode = 0 ∧ string.data.length ≠ 0 then none else some string.mixHashcode

/-- `GetHashcode`, with the string that it leaves. -/
def getHashcode (string : EcmaString) : UInt32 × EcmaString :=
  match string.tryGetHashCode with
  | some hashcode => (hashcode, string)
  | none => (string.computeHashcode, { string with mixHashcode := string.computeHashcode })

/-- `StringsAreEqual` of two strings that are not one object. -/
def stringsAreEqual (str1 str2 : EcmaString) : Bool :=
  if str1.data.length ≠ str2.data.length then false
  else if str1.data.length = 0 then true
  else
    match str1.tryGetHashCode, str2.tryGetHashCode with
    | some str1Hash, some str2Hash => str1Hash == str2Hash && str1.data == str2.data
    | _, _ => str1.data == str2.data

end EcmaString

/-- The slot at `HASH_OFFSET` of an object: the hash itself, an array that holds it at `HASH_INDEX`,
    or the extra information of a function. -/
inductive HashField where
  | int (hash : Int32)
  | array (hash : Int32) (functionExtra : Option UInt64)
  | nativePointer (pointer : UInt64)

namespace HashField

/-- `ECMAObject::GetHash`. -/
def getHash : HashField → Int32
  | int hash => hash
  | array hash _ => hash
  | nativePointer _ => 0

/-- `ECMAObject::SetHash`. -/
def setHash (hash : Int32) : HashField → HashField
  | int _ => int hash
  | array _ functionExtra => array hash functionExtra
  | nativePointer pointer => array hash (some pointer)

@[simp] theorem getHash_setHash (field : HashField) (hash : Int32) :
    (field.setHash hash).getHash = hash := by
  cases field <;> rfl

end HashField

inductive HeapObject where
  | string (string : EcmaString)
  | symbol (hashField : UInt32)
  | bigInt (bigint : BigInt)
  | ecmaObject (hashField : HashField)
  | other

structure KeyHeap where
  object : Address → HeapObject
  randomState : UInt64

namespace KeyHeap

def write (heap : KeyHeap) (address : Address) (object : HeapObject) : KeyHeap :=
  { heap with object := fun place => if place = address then object else heap.object place }

/-- `XorShift64`, on the state. -/
def xorShift64 (state : UInt64) : UInt64 :=
  let x := state ^^^ (state >>> 12)
  let x := x ^^^ (x <<< 25)
  x ^^^ (x >>> 27)

/-- `GenerateIdentityHash`, of the random state. -/
def identityHash (state : UInt64) : Int32 :=
  ((xorShift64 state * 0x2545F4914F6CDD1D) >>> 32).toUInt32.toInt32 &&& 0x7FFFFFFF

/-- The hash of the object at an address, which is generated if it is not there. -/
def objectHash (heap : KeyHeap) (address : Address) (field : HashField) : Int32 × KeyHeap :=
  let hash := field.getHash
  if hash = 0 then
    let hash := identityHash heap.randomState
    let heap := { heap with randomState := xorShift64 heap.randomState }
    (hash, heap.write address (.ecmaObject (field.setHash hash)))
  else (hash, heap)

/-- `GetHashcode` of the string at an address. -/
def stringHash (heap : KeyHeap) (address : Address) (string : EcmaString) : UInt32 × KeyHeap :=
  let (hashcode, string) := string.getHashcode
  (hashcode, heap.write address (.string string))

end KeyHeap

/-! ## Equality -/

/-- `BigInt::Equal`. -/
def bigIntsAreEqual (x y : BigInt) : Bool :=
  match BigInt.equal x y with
  | .ok same => same
  | .error _ => false

/-- `SameValueNumberic`. -/
def sameValueNumberic (xValue yValue : UInt64) : Bool :=
  if !doubleEq xValue yValue then isNaN xValue && isNaN yValue
  else signbit xValue == signbit yValue

/-- `StringCompare` of two strings that are not one object. -/
def stringCompare (xStr yStr : EcmaString) : Bool :=
  if xStr.isInternString && yStr.isInternString then false else xStr.stringsAreEqual yStr

/-- The end of `SameValue` and of `SameValueZero`, which compare strings differently. -/
def sameObject (compare : EcmaString → EcmaString → Bool) : HeapObject → HeapObject → Bool
  | .string xStr, .string yStr => compare xStr yStr
  | .bigInt x, .bigInt y => bigIntsAreEqual x y
  | _, _ => false

def sameHeapObject (compare : EcmaString → EcmaString → Bool) (heap : KeyHeap) :
    TaggedKey → TaggedKey → Bool
  | .heapObject a, .heapObject b => sameObject compare (heap.object a) (heap.object b)
  | _, _ => false

/-- `SameValue`. -/
def sameValue (heap : KeyHeap) (x y : TaggedKey) : Bool :=
  if x.getRawData = y.getRawData then true
  else if x.isInt && y.isInt then false
  else
    match x.extractNumber, y.extractNumber with
    | some xValue, some yValue => sameValueNumberic xValue yValue
    | _, _ => sameHeapObject stringCompare heap x y

/-- `SameValueZero`. -/
def sameValueZero (heap : KeyHeap) (x y : TaggedKey) : Bool :=
  if x.getRawData = y.getRawData then true
  else
    match x.extractNumber, y.extractNumber with
    | some xValue, some yValue => doubleEq xValue yValue || isNaN xValue && isNaN yValue
    | _, _ => sameHeapObject EcmaString.stringsAreEqual heap x y

/-! ## The hashes -/

/-- The bytes of a `uint64_t`, the lowest first. -/
def bytesOfUInt64 (value : UInt64) : List UInt8 :=
  (List.range 8).map fun i => (value >>> (8 * UInt64.ofNat i)).toUInt8

def bytesOfUInt32 (value : UInt32) : List UInt8 :=
  (List.range 4).map fun i => (value >>> (8 * UInt32.ofNat i)).toUInt8

namespace Platform

/-- `GetHash32` of the raw data of a value. -/
def rawHash (platform : Platform) (rawData : UInt64) : UInt32 :=
  platform.getHash32 (bytesOfUInt64 rawData)

/-- `GetHash32` of the lowest digit of a BigInt, which always has one. -/
def digitHash (platform : Platform) (bigint : BigInt) : UInt32 :=
  platform.getHash32 (bytesOfUInt32 (bigint.digits.headD 0))

end Platform

/-- `JSTaggedNumber(v).GetInt()` of a `uint32_t`: the lower half of a double where `v` is not an
    `int`. -/
def taggedNumberInt (v : UInt32) : Int32 :=
  if v.toInt32 < 0 then (doubleOfUInt32 v + doubleEncodeOffset).toUInt32.toInt32 else v.toInt32

/-- What a hash makes of the objects of the heap, which all four tell apart in the same way. -/
structure ObjectHashes (β : Type) where
  ofSymbol : UInt32 → β
  ofString : UInt32 → β
  ofIdentity : Int32 → β
  ofBigInt : BigInt → Address → β
  ofPointer : Address → β

/-- The cases of a hash for the objects of the heap. -/
def ObjectHashes.hash (hashes : ObjectHashes β) (address : Address) (heap : KeyHeap) : β × KeyHeap :=
  match heap.object address with
  | .symbol hashField => (hashes.ofSymbol hashField, heap)
  | .string string =>
    let (hashcode, heap) := heap.stringHash address string
    (hashes.ofString hashcode, heap)
  | .ecmaObject hashField =>
    let (hash, heap) := heap.objectHash address hashField
    (hashes.ofIdentity hash, heap)
  | .bigInt bigint => (hashes.ofBigInt bigint address, heap)
  | .other => (hashes.ofPointer address, heap)

variable (platform : Platform)

def linkedHashObjects : ObjectHashes Int32 where
  ofSymbol := UInt32.toInt32
  ofString := UInt32.toInt32
  ofIdentity := id
  ofBigInt bigint _ := (platform.digitHash bigint).toInt32
  ofPointer address := (platform.rawHash address.value).toInt32

/-- `LinkedHash::Hash`. -/
def linkedHash (key : TaggedKey) (heap : KeyHeap) : Int32 × KeyHeap :=
  match key with
  | .heapObject address => (linkedHashObjects platform).hash address heap
  | .double d =>
    ((platform.rawHash (TaggedKey.tryCastDoubleToInt32 platform d).getRawData).toInt32, heap)
  | _ => ((platform.rawHash key.getRawData).toInt32, heap)

def taggedNodeObjects : ObjectHashes Int32 where
  ofSymbol := taggedNumberInt
  ofString := UInt32.toInt32
  ofIdentity := id
  ofBigInt bigint _ := (platform.digitHash bigint).toInt32
  ofPointer address := (platform.rawHash address.value).toInt32

/-- `TaggedNode::Hash`. -/
def taggedNodeHash (key : TaggedKey) (heap : KeyHeap) : Int32 × KeyHeap :=
  match key with
  | .int number => (number, heap)
  | .double d =>
    let tryIntKey := platform.castInt32 d.bits
    if doubleEq (JSNumber.doubleOfInt tryIntKey) d.bits then (tryIntKey, heap)
    else ((platform.rawHash key.getRawData).toInt32, heap)
  | .heapObject address => (taggedNodeObjects platform).hash address heap
  | .special _ => ((platform.rawHash key.getRawData).toInt32, heap)

/-- The first lines of both functions of the light-weight containers. -/
def zeroAsInt (key : TaggedKey) : TaggedKey :=
  match key with
  | .double d => if doubleEq d.bits 0 then .int 0 else key
  | _ => key

def lightWeightMapObjects : ObjectHashes Int32 where
  ofSymbol := UInt32.toInt32
  ofString := UInt32.toInt32
  ofIdentity := id
  ofBigInt bigint _ := (platform.digitHash bigint).toInt32
  ofPointer address := (platform.rawHash address.value).toInt32

/-- `JSAPILightWeightMap::Hash`. -/
def lightWeightMapHash (key : TaggedKey) (heap : KeyHeap) : Int32 × KeyHeap :=
  let key := zeroAsInt key
  match key with
  | .heapObject address => (lightWeightMapObjects platform).hash address heap
  | .int number => (number, heap)
  | _ => ((platform.rawHash key.getRawData).toInt32, heap)

/-- The set has no case for a BigInt, which is hashed by its pointer. -/
def lightWeightSetObjects : ObjectHashes UInt32 where
  ofSymbol := id
  ofString := id
  ofIdentity := Int32.toUInt32
  ofBigInt _ address := platform.rawHash address.value
  ofPointer address := platform.rawHash address.value

/-- `JSAPILightWeightSet::Hash`. -/
def lightWeightSetHash (key : TaggedKey) (heap : KeyHeap) : UInt32 × KeyHeap :=
  let key := zeroAsInt key
  match key with
  | .heapObject address => (lightWeightSetObjects platform).hash address heap
  | .int number => (number.toUInt32, heap)
  | _ => (platform.rawHash key.getRawData, heap)

end KeyHash

end ArkRuntime
