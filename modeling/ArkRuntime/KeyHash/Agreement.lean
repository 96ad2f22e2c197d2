import ArkRuntime.KeyHash.Equality

/-!
# Equal keys and equal hashes

The hash of the linked tables respects `SameValueZero`, and that of the hash maps `SameValue`, but
for strings with a wrong hash in them and identity hashes that come out zero. The light-weight
containers hash an `int` by its value and the double that equals it by its bits, and the set hashes a
BigInt by its pointer.
-/

namespace ArkRuntime

namespace KeyHash

variable {β : Type} {x y : TaggedKey} {n : Int32} {d : Double} {heap : KeyHeap}
variable (platform : Platform)

/-! ## Objects of the heap -/

/-- The hash of the second key, after that of the first, is the same. -/
def AgreesOn (hash : TaggedKey → KeyHeap → β × KeyHeap) (heap : KeyHeap) (x y : TaggedKey) : Prop :=
  (hash x heap).1 = (hash y (hash x heap).2).1

/-- The identity hash that an object is given is not zero, or so is the next one. -/
def IdentityKept (heap : KeyHeap) (a : Address) : Prop :=
  ∀ field, heap.object a = .ecmaObject field → field.getHash = 0 →
    KeyHeap.identityHash heap.randomState = 0 →
      KeyHeap.identityHash (KeyHeap.xorShift64 heap.randomState) = 0

@[simp] theorem KeyHeap.object_write (heap : KeyHeap) (a : Address) (object : HeapObject) :
    (heap.write a object).object a = object := if_pos rfl

theorem KeyHeap.object_write_of_ne {a b : Address} (other : b ≠ a) (heap : KeyHeap)
    (object : HeapObject) : (heap.write a object).object b = heap.object b := if_neg other

theorem KeyHeap.objectHash_of_zero {a : Address} {field : HashField} (zero : field.getHash = 0) :
    heap.objectHash a field = (identityHash heap.randomState,
      ({ heap with randomState := xorShift64 heap.randomState } : KeyHeap).write a
        (.ecmaObject (field.setHash (identityHash heap.randomState)))) := if_pos zero

theorem KeyHeap.objectHash_of_ne {a : Address} {field : HashField} (known : field.getHash ≠ 0) :
    heap.objectHash a field = (field.getHash, heap) := if_neg known

namespace EcmaString

variable {s t : EcmaString}

theorem getHashcode_of_some {hashcode : UInt32} (stored : s.tryGetHashCode = some hashcode) :
    s.getHashcode = (hashcode, s) := by
  rw [getHashcode, stored]

theorem getHashcode_of_none (unknown : s.tryGetHashCode = none) :
    s.getHashcode = (s.computeHashcode, { s with mixHashcode := s.computeHashcode }) := by
  rw [getHashcode, unknown]

theorem mixHashcode_of_some {hashcode : UInt32} (stored : s.tryGetHashCode = some hashcode) :
    hashcode = s.mixHashcode := by
  unfold tryGetHashCode at stored
  split at stored
  · cases stored
  · exact (Option.some.inj stored).symm

theorem getHashcode_again (s : EcmaString) : s.getHashcode.2.getHashcode.1 = s.getHashcode.1 := by
  cases stored : s.tryGetHashCode with
  | some hashcode => rw [getHashcode_of_some stored, getHashcode_of_some stored]
  | none =>
    rw [getHashcode_of_none stored]
    -- a hash that comes out zero is computed again
    cases again : ({ s with mixHashcode := s.computeHashcode } : EcmaString).tryGetHashCode with
    | some hashcode =>
      rw [getHashcode_of_some again]
      exact mixHashcode_of_some again
    | none =>
      rw [getHashcode_of_none again]
      rfl

/-- A short decimal numeral, whose hash depends on the encoding. -/
def IsShortNumeral (data : List UInt16) : Prop :=
  data.length < maxElementIndexLen ∧ (hashIntegerString data).isSome = true

theorem mix_integer (data : List UInt16) (hash : UInt32) (found : hashIntegerString data = some hash) :
    ∃ num, hash = mix num true := by
  cases data with
  | nil => cases found
  | cons c rest =>
    simp only [hashIntegerString] at found
    split at found
    · obtain ⟨num, -, eq⟩ := Option.map_eq_some_iff.mp found
      exact ⟨num, eq.symm⟩
    · split at found
      · exact ⟨0, (Option.some.inj found).symm⟩
      · cases found

theorem mix_ne (a b : UInt32) : mix a true ≠ mix b false := by
  intro eq
  have bit := congrArg (fun word : UInt32 => word.toBitVec.getLsbD 31) eq
  simp [mix, isIntegerMask] at bit

theorem computeHashcode_of_numeral {hash : UInt32} (short : s.data.length < maxElementIndexLen)
    (found : hashIntegerString s.data = some hash) :
    s.computeHashcode = if s.isUtf8 then hash else mix (computeHashForData s.data) false := by
  have nonempty : s.data ≠ [] := fun eq => by
    rw [eq] at found
    cases found
  rw [computeHashcode, if_neg nonempty, found]
  cases s.isUtf8 <;> simp [short]

theorem computeHashcode_of_not_numeral (other : ¬IsShortNumeral s.data) :
    s.computeHashcode = mix (computeHashForData s.data) false := by
  rw [computeHashcode]
  split
  · rename_i empty
    rw [empty]
    rfl
  · split
    · rename_i short
      have short := Bool.and_eq_true_iff.mp short
      have unknown : hashIntegerString s.data = none := by
        by_contra found
        exact other ⟨of_decide_eq_true short.2, Option.isSome_iff_ne_none.mpr found⟩
      rw [unknown]
      rfl
    · rfl

/-- Two strings of the same characters have the same hash computed if they are encoded alike. -/
theorem computeHashcode_eq_iff (same : s.data = t.data) :
    s.computeHashcode = t.computeHashcode ↔ s.isUtf8 = t.isUtf8 ∨ ¬IsShortNumeral s.data := by
  by_cases numeral : IsShortNumeral s.data
  · obtain ⟨hash, found⟩ := Option.isSome_iff_exists.mp numeral.2
    obtain ⟨num, eq⟩ := mix_integer _ _ found
    have other : hash ≠ mix (computeHashForData s.data) false := eq ▸ mix_ne num _
    rw [computeHashcode_of_numeral numeral.1 found,
      computeHashcode_of_numeral (same ▸ numeral.1) (same ▸ found), ← same]
    cases s.isUtf8 <;> cases t.isUtf8 <;> simp [numeral, other, other.symm]
  · refine iff_of_true ?_ (.inr numeral)
    rw [computeHashcode_of_not_numeral numeral, computeHashcode_of_not_numeral (same ▸ numeral), same]

/-- What strings of the same characters store beforehand: one that has a hash has that of its
    characters, and if neither has one, they are encoded alike or are no short numeral. -/
def StoredRight (s t : EcmaString) : Prop :=
  s.data = t.data →
    match s.tryGetHashCode, t.tryGetHashCode with
    | some h, some k => s.data = [] → h = k
    | some h, none => h = t.computeHashcode
    | none, some k => k = s.computeHashcode
    | none, none => s.isUtf8 = t.isUtf8 ∨ ¬IsShortNumeral s.data

theorem stringsAreEqual_iff (s t : EcmaString) : s.stringsAreEqual t = true ↔ s.data = t.data ∧
    ∀ h k, s.tryGetHashCode = some h → t.tryGetHashCode = some k → s.data ≠ [] → h = k := by
  rw [stringsAreEqual]
  by_cases length : s.data.length = t.data.length
  · rw [if_neg (fun different => different length)]
    by_cases empty : s.data.length = 0
    · have nilS : s.data = [] := List.length_eq_zero_iff.mp empty
      have nilT : t.data = [] := List.length_eq_zero_iff.mp (length ▸ empty)
      rw [if_pos empty]
      exact iff_of_true rfl ⟨nilS.trans nilT.symm, fun _ _ _ _ nonempty => absurd nilS nonempty⟩
    · have nonempty : s.data ≠ [] := fun nil => empty (List.length_eq_zero_iff.mpr nil)
      rw [if_neg empty]
      cases s.tryGetHashCode <;> cases t.tryGetHashCode <;>
        simp [nonempty, and_comm]
  · rw [if_pos length]
    exact iff_of_false Bool.false_ne_true fun same => length (congrArg List.length same.1)

/-- Equal strings have one hash if what they store is right. -/
theorem getHashcode_eq_iff (s t : EcmaString) :
    (s.stringsAreEqual t = true → s.getHashcode.1 = t.getHashcode.1) ↔ StoredRight s t := by
  rw [stringsAreEqual_iff, StoredRight, and_imp]
  refine forall_congr' fun same => ?_
  cases storedS : s.tryGetHashCode with
  | some h =>
    rw [getHashcode_of_some storedS]
    cases storedT : t.tryGetHashCode with
    | some k =>
      rw [getHashcode_of_some storedT]
      constructor
      · intro agree empty
        exact agree fun _ _ _ _ nonempty => absurd empty nonempty
      · intro agree equal
        by_cases empty : s.data = []
        · exact agree empty
        · exact equal h k rfl rfl empty
    | none =>
      rw [getHashcode_of_none storedT]
      exact ⟨fun agree => agree fun _ _ _ found => (nomatch found), fun eq _ => eq⟩
  | none =>
    rw [getHashcode_of_none storedS]
    cases storedT : t.tryGetHashCode with
    | some k =>
      rw [getHashcode_of_some storedT]
      exact ⟨fun agree => (agree fun _ _ found => (nomatch found)).symm, fun eq _ => eq.symm⟩
    | none =>
      rw [getHashcode_of_none storedT, ← computeHashcode_eq_iff same]
      exact ⟨fun agree => agree fun _ _ found => (nomatch found), fun eq _ => eq⟩

end EcmaString

theorem bigIntsAreEqual_iff (v w : BigInt) : bigIntsAreEqual v w = true ↔ v = w := by
  rw [bigIntsAreEqual, BigInt.equal]
  by_cases different : v.sign ≠ w.sign ∨ v.length ≠ w.length
  · rw [if_pos different]
    refine iff_of_false Bool.false_ne_true fun eq => ?_
    rw [eq] at different
    exact different.elim (fun sign => sign rfl) fun length => length rfl
  · push Not at different
    have scanned : BigInt.equalDigits v.digits w.digits 0 v.length =
        .ok (decide (v.digits.drop 0 = w.digits.drop 0)) := BigInt.equalDigits_spec v.length 0
      (Nat.zero_add _) ((Nat.zero_add _).trans different.2)
    rw [if_neg (by push Not; exact different), scanned, List.drop_zero, List.drop_zero]
    simp only [decide_eq_true_eq]
    refine ⟨fun digits => ?_, fun eq => congrArg BigInt.digits eq⟩
    cases v
    cases w
    exact congrArg₂ BigInt.mk different.1 digits

namespace ObjectHashes

variable {hashes : ObjectHashes β} {a b : Address}

theorem hash_string {s : EcmaString} (object : heap.object a = .string s) :
    hashes.hash a heap = (hashes.ofString s.getHashcode.1,
      heap.write a (.string s.getHashcode.2)) := by
  rw [hash, object]
  rfl

theorem hash_ecmaObject {field : HashField} (object : heap.object a = .ecmaObject field) :
    hashes.hash a heap = (hashes.ofIdentity (heap.objectHash a field).1,
      (heap.objectHash a field).2) := by
  rw [hash, object]

theorem hash_bigInt {bigint : BigInt} (object : heap.object a = .bigInt bigint) :
    hashes.hash a heap = (hashes.ofBigInt bigint a, heap) := by
  rw [hash, object]

/-- Hashing an object twice. -/
theorem hash_twice (injective : Function.Injective hashes.ofIdentity) (heap : KeyHeap) (a : Address) :
    (hashes.hash a heap).1 = (hashes.hash a (hashes.hash a heap).2).1 ↔ IdentityKept heap a := by
  have vacuous (other : ∀ field, heap.object a ≠ .ecmaObject field) : IdentityKept heap a :=
    fun field found => absurd found (other field)
  cases object : heap.object a with
  | string s =>
    have again := s.getHashcode_again
    refine iff_of_true ?_ (vacuous fun field => by rw [object]; exact nofun)
    rw [hash_string object, hash_string (KeyHeap.object_write heap a _), again]
  | symbol field =>
    refine iff_of_true ?_ (vacuous fun field => by rw [object]; exact nofun)
    simp only [hash, object]
  | bigInt bigint =>
    refine iff_of_true ?_ (vacuous fun field => by rw [object]; exact nofun)
    simp only [hash, object]
  | ecmaObject field =>
    rw [hash_ecmaObject object]
    by_cases zero : field.getHash = 0
    · have kept : IdentityKept heap a ↔ (KeyHeap.identityHash heap.randomState = 0 →
          KeyHeap.identityHash (KeyHeap.xorShift64 heap.randomState) = 0) := by
        exact ⟨fun kept => kept field object zero, fun kept other found _ => kept⟩
      rw [KeyHeap.objectHash_of_zero zero, kept, hash_ecmaObject (KeyHeap.object_write _ a _),
        injective.eq_iff]
      generalize KeyHeap.identityHash heap.randomState = generated
      by_cases again : generated = 0
      · rw [KeyHeap.objectHash_of_zero (by rw [HashField.getHash_setHash, again])]
        simp only [again, forall_const]
        exact eq_comm
      · rw [KeyHeap.objectHash_of_ne (by rw [HashField.getHash_setHash]; exact again),
          HashField.getHash_setHash]
        exact iff_of_true rfl fun eq => absurd eq again
    · rw [KeyHeap.objectHash_of_ne zero, hash_ecmaObject object, KeyHeap.objectHash_of_ne zero]
      refine iff_of_true rfl fun other found => ?_
      rw [object] at found
      cases found
      exact fun eq => absurd eq zero
  | other =>
    refine iff_of_true ?_ (vacuous fun field => by rw [object]; exact nofun)
    simp only [hash, object]

end ObjectHashes

/-! ## Respect for equality -/

/-- Equal keys have equal hashes, in each container by its own equality. -/
structure RespectsEquality (platform : Platform) (heap : KeyHeap) (x y : TaggedKey) : Prop where
  linkedHash : sameValueZero heap x y = true → AgreesOn (linkedHash platform) heap x y
  taggedNode : sameValue heap x y = true → AgreesOn (taggedNodeHash platform) heap x y
  lightWeightMap : sameValue heap x y = true → AgreesOn (lightWeightMapHash platform) heap x y
  lightWeightSet : sameValue heap x y = true → AgreesOn (lightWeightSetHash platform) heap x y

/-- When they do. -/
structure Respectful (platform : Platform) (heap : KeyHeap) (x y : TaggedKey) : Prop where
  /-- An object is not given the identity hash zero. -/
  identity : ∀ a, x = .heapObject a → y = .heapObject a → IdentityKept heap a
  /-- Strings store the hash of their characters, and short numerals are encoded alike. -/
  strings : ∀ a b s t, x = .heapObject a → y = .heapObject b → a ≠ b →
    heap.object a = .string s → heap.object b = .string t → s.StoredRight t
  /-- An `int` other than zero and the double that equals it: the light-weight containers agree only
      if `GetHash32` takes the bits of the double to the `int`. -/
  numbers : ∀ n d, n ≠ 0 → IntAndDouble x y n d →
    platform.rawHash (TaggedKey.double d).getRawData = n.toUInt32
  /-- Two `NaN`s of different bits: they agree only if `GetHash32` takes both to one number. -/
  nans : ∀ d e, x = .double d → y = .double e → isNaN d.bits = true → isNaN e.bits = true →
    platform.rawHash (TaggedKey.double d).getRawData = platform.rawHash (TaggedKey.double e).getRawData
  /-- Two BigInts of one value: the set agrees only if `GetHash32` takes their pointers to one
      number. -/
  bigInts : ∀ a b bigint, x = .heapObject a → y = .heapObject b → a ≠ b →
    heap.object a = .bigInt bigint → heap.object b = .bigInt bigint →
    platform.rawHash a.value = platform.rawHash b.value

theorem sameValueZero_self (heap : KeyHeap) (x : TaggedKey) : sameValueZero heap x x = true :=
  if_pos rfl

theorem sameValueZero_heapObject {a b : Address} (different : a ≠ b) :
    sameValueZero heap (.heapObject a) (.heapObject b) =
      sameObject EcmaString.stringsAreEqual (heap.object a) (heap.object b) :=
  if_neg fun eq => different (Address.ext eq)

theorem sameValue_heapObject {a b : Address} (different : a ≠ b) :
    sameValue heap (.heapObject a) (.heapObject b) =
      sameObject stringCompare (heap.object a) (heap.object b) :=
  if_neg fun eq => different (Address.ext eq)

namespace ObjectHashes

variable {hashes : ObjectHashes β} {a b : Address}

theorem hash_strings (injective : Function.Injective hashes.ofString) (different : a ≠ b)
    {s t : EcmaString} (objectA : heap.object a = .string s) (objectB : heap.object b = .string t) :
    (hashes.hash a heap).1 = (hashes.hash b (hashes.hash a heap).2).1 ↔
      s.getHashcode.1 = t.getHashcode.1 := by
  have kept : (heap.write a (.string s.getHashcode.2)).object b = .string t := by
    rw [KeyHeap.object_write_of_ne different.symm, objectB]
  rw [hash_string objectA, hash_string kept, injective.eq_iff]

theorem hash_bigInts {v w : BigInt} (objectA : heap.object a = .bigInt v)
    (objectB : heap.object b = .bigInt w) :
    (hashes.hash a heap).1 = (hashes.hash b (hashes.hash a heap).2).1 ↔
      hashes.ofBigInt v a = hashes.ofBigInt w b := by
  rw [hash_bigInt objectA, hash_bigInt objectB]

/-- Objects of one contents have one hash, but for what `Respectful` asks of them. -/
theorem hash_sameContents (injective : Function.Injective hashes.ofString) (different : a ≠ b)
    (compare : EcmaString → EcmaString → Bool)
    (same : sameObject compare (heap.object a) (heap.object b) = true)
    (strings : ∀ s t, heap.object a = .string s → heap.object b = .string t →
      compare s t = true → s.getHashcode.1 = t.getHashcode.1)
    (bigInts : ∀ bigint, heap.object a = .bigInt bigint → heap.object b = .bigInt bigint →
      hashes.ofBigInt bigint a = hashes.ofBigInt bigint b) :
    (hashes.hash a heap).1 = (hashes.hash b (hashes.hash a heap).2).1 := by
  cases objectA : heap.object a with
  | string s =>
    cases objectB : heap.object b with
    | string t =>
      rw [objectA, objectB] at same
      exact (hash_strings injective different objectA objectB).mpr (strings s t objectA objectB same)
    | _ => rw [objectA, objectB] at same; cases same
  | bigInt v =>
    cases objectB : heap.object b with
    | bigInt w =>
      rw [objectA, objectB] at same
      obtain rfl : v = w := (bigIntsAreEqual_iff v w).mp same
      exact (hash_bigInts objectA objectB).mpr (bigInts v objectA objectB)
    | _ => rw [objectA, objectB] at same; cases same
  | _ => rw [objectA] at same; cases same

end ObjectHashes

theorem stringsAreEqual_of_stringCompare {s t : EcmaString} (same : stringCompare s t = true) :
    s.stringsAreEqual t = true := by
  unfold stringCompare at same
  split at same
  · cases same
  · exact same

/-- What the four hashes have in common: they read the heap for its objects only. -/
structure HashesObjects (hash : TaggedKey → KeyHeap → β × KeyHeap) (objects : ObjectHashes β) :
    Prop where
  object : ∀ a heap, hash (.heapObject a) heap = objects.hash a heap
  plain : ∀ x, (∀ a, x ≠ .heapObject a) → ∃ v, ∀ heap, hash x heap = (v, heap)
  ofString : Function.Injective objects.ofString
  ofIdentity : Function.Injective objects.ofIdentity

theorem injective_toInt32 : Function.Injective UInt32.toInt32 := fun a b eq => by
  rw [← UInt32.toUInt32_toInt32 a, eq, UInt32.toUInt32_toInt32]

theorem injective_toUInt32 : Function.Injective Int32.toUInt32 := fun a b eq => by
  rw [← Int32.toInt32_toUInt32 a, eq, Int32.toInt32_toUInt32]

theorem linkedHash_objects : HashesObjects (linkedHash platform) (linkedHashObjects platform) where
  object _ _ := rfl
  plain x plain := by
    cases x with
    | heapObject a => exact absurd rfl (plain a)
    | _ => exact ⟨_, fun _ => rfl⟩
  ofString := injective_toInt32
  ofIdentity := Function.injective_id

theorem taggedNodeHash_objects :
    HashesObjects (taggedNodeHash platform) (taggedNodeObjects platform) where
  object _ _ := rfl
  plain x plain := by
    cases x with
    | heapObject a => exact absurd rfl (plain a)
    | double d =>
      by_cases cast : doubleEq (JSNumber.doubleOfInt (platform.castInt32 d.bits)) d.bits = true
      · exact ⟨_, fun _ => if_pos cast⟩
      · exact ⟨_, fun _ => if_neg cast⟩
    | _ => exact ⟨_, fun _ => rfl⟩
  ofString := injective_toInt32
  ofIdentity := Function.injective_id

theorem zeroAsInt_plain (plain : ∀ a, x ≠ .heapObject a) (a : Address) :
    zeroAsInt x ≠ .heapObject a := by
  cases x with
  | double d =>
    rw [zeroAsInt]
    split
    · exact nofun
    · exact nofun
  | _ => exact plain a

theorem lightWeightMapHash_objects :
    HashesObjects (lightWeightMapHash platform) (lightWeightMapObjects platform) where
  object _ _ := rfl
  plain x plain := by
    have plain := zeroAsInt_plain plain
    unfold lightWeightMapHash
    cases key : zeroAsInt x with
    | heapObject a => exact absurd key (plain a)
    | _ => exact ⟨_, fun _ => rfl⟩
  ofString := injective_toInt32
  ofIdentity := Function.injective_id

theorem lightWeightSetHash_objects :
    HashesObjects (lightWeightSetHash platform) (lightWeightSetObjects platform) where
  object _ _ := rfl
  plain x plain := by
    have plain := zeroAsInt_plain plain
    unfold lightWeightSetHash
    cases key : zeroAsInt x with
    | heapObject a => exact absurd key (plain a)
    | _ => exact ⟨_, fun _ => rfl⟩
  ofString := Function.injective_id
  ofIdentity := injective_toUInt32

namespace HashesObjects

variable {hash : TaggedKey → KeyHeap → β × KeyHeap} {objects : ObjectHashes β}

theorem agreesOn_self (hashes : HashesObjects hash objects)
    (kept : ∀ a, x = .heapObject a → IdentityKept heap a) : AgreesOn hash heap x x := by
  by_cases plain : ∀ a, x ≠ .heapObject a
  · obtain ⟨v, eq⟩ := hashes.plain x plain
    rw [AgreesOn, eq, eq]
  · push Not at plain
    obtain ⟨a, rfl⟩ := plain
    rw [AgreesOn, hashes.object, hashes.object]
    exact (ObjectHashes.hash_twice hashes.ofIdentity heap a).mpr (kept a rfl)

theorem identityKept_of_agreesOn (hashes : HashesObjects hash objects) {a : Address}
    (agree : AgreesOn hash heap (.heapObject a) (.heapObject a)) : IdentityKept heap a := by
  rw [AgreesOn, hashes.object, hashes.object] at agree
  exact (ObjectHashes.hash_twice hashes.ofIdentity heap a).mp agree

/-- Objects of one contents, but for what `Respectful` asks of them. -/
theorem agreesOn_sameContents (hashes : HashesObjects hash objects)
    {compare : EcmaString → EcmaString → Bool} (same : SameContents compare heap x y)
    (weaker : ∀ s t, compare s t = true → s.stringsAreEqual t = true)
    (respectful : Respectful platform heap x y)
    (bigInts : ∀ a b bigint, x = .heapObject a → y = .heapObject b → a ≠ b →
      heap.object a = .bigInt bigint → heap.object b = .bigInt bigint →
        objects.ofBigInt bigint a = objects.ofBigInt bigint b) : AgreesOn hash heap x y := by
  obtain ⟨a, b, rfl, rfl, different, same⟩ := same
  rw [AgreesOn, hashes.object, hashes.object]
  refine ObjectHashes.hash_sameContents hashes.ofString different compare same ?_ ?_
  · intro s t objectA objectB equal
    exact (s.getHashcode_eq_iff t).mpr
      (respectful.strings a b s t rfl rfl different objectA objectB) (weaker s t equal)
  · exact fun bigint objectA objectB => bigInts a b bigint rfl rfl different objectA objectB

end HashesObjects

/-! ## An int and the double that equals it -/

theorem isZeroDouble_doubleOfInt (zero : isZeroDouble (JSNumber.doubleOfInt n) = true) : n = 0 := by
  have cast := castInt32_doubleOfInt ⟨fun _ => 0, fun _ => 0⟩ n
  rw [castInt32_of_isZero _ zero] at cast
  exact cast.symm

theorem zeroAsInt_of_doubleOfInt (bits : d.bits = JSNumber.doubleOfInt n) :
    zeroAsInt (.double d) = if n = 0 then .int 0 else .double d := by
  have zero : doubleEq d.bits 0 = true ↔ n = 0 := by
    rw [doubleEq_iff, bits]
    constructor
    · rintro ⟨-, -, eq | ⟨zero, -⟩⟩
      · exact isZeroDouble_doubleOfInt (by rw [eq]; decide)
      · exact isZeroDouble_doubleOfInt zero
    · rintro rfl
      decide
  rw [zeroAsInt]
  by_cases n = 0 <;> simp_all

theorem lightWeightMapHash_double (bits : d.bits = JSNumber.doubleOfInt n) (heap : KeyHeap) :
    lightWeightMapHash platform (.double d) heap =
      (if n = 0 then 0 else (platform.rawHash (TaggedKey.double d).getRawData).toInt32, heap) := by
  rw [lightWeightMapHash, zeroAsInt_of_doubleOfInt bits]
  by_cases zero : n = 0
  · rw [if_pos zero, if_pos zero]
  · rw [if_neg zero, if_neg zero]

theorem lightWeightSetHash_double (bits : d.bits = JSNumber.doubleOfInt n) (heap : KeyHeap) :
    lightWeightSetHash platform (.double d) heap =
      (if n = 0 then 0 else platform.rawHash (TaggedKey.double d).getRawData, heap) := by
  rw [lightWeightSetHash, zeroAsInt_of_doubleOfInt bits]
  by_cases zero : n = 0
  · rw [if_pos zero, if_pos zero]
    rfl
  · rw [if_neg zero, if_neg zero]

theorem lightWeightMap_agreesOn (pair : IntAndDouble x y n d) (heap : KeyHeap) :
    AgreesOn (lightWeightMapHash platform) heap x y ↔
      (n ≠ 0 → platform.rawHash (TaggedKey.double d).getRawData = n.toUInt32) := by
  have ofInt : lightWeightMapHash platform (.int n) heap = (n, heap) := rfl
  have cast (word : UInt32) : word.toInt32 = n ↔ word = n.toUInt32 :=
    ⟨fun eq => by rw [← eq, UInt32.toUInt32_toInt32], fun eq => by rw [eq, Int32.toInt32_toUInt32]⟩
  obtain ⟨bits, ⟨rfl, rfl⟩ | ⟨rfl, rfl⟩⟩ := pair
  · rw [AgreesOn, ofInt, lightWeightMapHash_double platform bits, eq_comm]
    by_cases zero : n = 0 <;> simp [zero, cast]
  · rw [AgreesOn, lightWeightMapHash_double platform bits, ofInt]
    by_cases zero : n = 0 <;> simp [zero, cast]

theorem lightWeightSet_agreesOn (pair : IntAndDouble x y n d) (heap : KeyHeap) :
    AgreesOn (lightWeightSetHash platform) heap x y ↔
      (n ≠ 0 → platform.rawHash (TaggedKey.double d).getRawData = n.toUInt32) := by
  have ofInt : lightWeightSetHash platform (.int n) heap = (n.toUInt32, heap) := rfl
  have zeroCast : (0 : Int32).toUInt32 = 0 := rfl
  obtain ⟨bits, ⟨rfl, rfl⟩ | ⟨rfl, rfl⟩⟩ := pair
  · rw [AgreesOn, ofInt, lightWeightSetHash_double platform bits, eq_comm]
    by_cases zero : n = 0 <;> simp [zero, zeroCast]
  · rw [AgreesOn, lightWeightSetHash_double platform bits, ofInt]
    by_cases zero : n = 0 <;> simp [zero, zeroCast]

theorem doubleEq_nan {a b : UInt64} (nan : isNaN b = true) : doubleEq a b = false := by
  rw [doubleEq, nan, Bool.not_true, Bool.and_false, Bool.false_and]

/-- All four hash a `NaN` by its bits. -/
theorem hash_nan (nan : isNaN d.bits = true) (heap : KeyHeap) :
    let hash := platform.rawHash (TaggedKey.double d).getRawData
    linkedHash platform (.double d) heap = (hash.toInt32, heap) ∧
      taggedNodeHash platform (.double d) heap = (hash.toInt32, heap) ∧
      lightWeightMapHash platform (.double d) heap = (hash.toInt32, heap) ∧
      lightWeightSetHash platform (.double d) heap = (hash, heap) := by
  have kept : zeroAsInt (.double d) = .double d := by
    rw [zeroAsInt, doubleEq, nan, Bool.not_true, Bool.false_and, Bool.false_and, if_neg Bool.false_ne_true]
  refine ⟨?_, ?_, ?_, ?_⟩
  · simp only [linkedHash, TaggedKey.tryCastDoubleToInt32, doubleEq_nan nan, Bool.not_false, if_true]
  · simp only [taggedNodeHash, doubleEq_nan nan, Bool.false_eq_true, if_false]
  · rw [lightWeightMapHash, kept]
  · rw [lightWeightSetHash, kept]

theorem agreesOn_nans (respectful : Respectful platform heap x y) (nans : BothNaN x y) :
    AgreesOn (linkedHash platform) heap x y ∧ AgreesOn (taggedNodeHash platform) heap x y ∧
      AgreesOn (lightWeightMapHash platform) heap x y ∧ AgreesOn (lightWeightSetHash platform) heap x y := by
  obtain ⟨d, e, rfl, rfl, nanD, nanE⟩ := nans
  have same := respectful.nans d e rfl rfl nanD nanE
  obtain ⟨linked, node, map, set⟩ := hash_nan platform nanD heap
  obtain ⟨linked', node', map', set'⟩ := hash_nan platform nanE heap
  refine ⟨?_, ?_, ?_, ?_⟩
  · rw [AgreesOn, linked, linked', same]
  · rw [AgreesOn, node, node', same]
  · rw [AgreesOn, map, map', same]
  · rw [AgreesOn, set, set', same]

theorem sameValue_nans {d e : Double} (nanD : isNaN d.bits = true) (nanE : isNaN e.bits = true) (heap : KeyHeap) :
    sameValue heap (.double d) (.double e) = true := by
  have numbers : sameValueNumberic d.bits e.bits = true := by
    rw [sameValueNumberic, doubleEq_nan nanE, nanD, nanE, Bool.not_false, if_pos rfl, Bool.and_self]
  rw [sameValue]
  split
  · rfl
  · exact numbers

theorem sameValueNumberic_self {bits : UInt64} (number : isNaN bits = false) :
    sameValueNumberic bits bits = true := by
  have equal : doubleEq bits bits = true := (doubleEq_iff _ _).mpr ⟨number, number, .inl rfl⟩
  rw [sameValueNumberic, equal]
  exact beq_self_eq_true _

theorem sameValue_of_intAndDouble (pair : IntAndDouble x y n d) (heap : KeyHeap) :
    sameValue heap x y = true := by
  have number := not_isNaN_doubleOfInt n
  obtain ⟨bits, ⟨rfl, rfl⟩ | ⟨rfl, rfl⟩⟩ := pair
  · have different : (TaggedKey.int n).getRawData ≠ (TaggedKey.double d).getRawData :=
      fun eq => (by cases getRawData_injective eq)
    simp only [sameValue, if_neg different, TaggedKey.isInt, Bool.and_false, Bool.false_eq_true,
      if_false, TaggedKey.extractNumber, bits, sameValueNumberic_self number]
  · have different : (TaggedKey.double d).getRawData ≠ (TaggedKey.int n).getRawData :=
      fun eq => (by cases getRawData_injective eq)
    simp only [sameValue, if_neg different, TaggedKey.isInt, Bool.false_and, Bool.false_eq_true,
      if_false, TaggedKey.extractNumber, bits, sameValueNumberic_self number]

/-! ## The condition -/

variable {platform}

theorem respectful_of_respects (respects : RespectsEquality platform heap x y) :
    Respectful platform heap x y where
  identity a := by
    rintro rfl rfl
    exact (linkedHash_objects platform).identityKept_of_agreesOn
      (respects.linkedHash (sameValueZero_self heap _))
  strings a b s t := by
    rintro rfl rfl different objectA objectB
    rw [← s.getHashcode_eq_iff t]
    intro same
    have agree := respects.linkedHash (by
      rw [sameValueZero_heapObject different, objectA, objectB]
      exact same)
    exact (ObjectHashes.hash_strings injective_toInt32 different objectA objectB).mp agree
  numbers n d nonzero pair :=
    (lightWeightMap_agreesOn platform pair heap).mp
      (respects.lightWeightMap (sameValue_of_intAndDouble pair heap)) nonzero
  nans d e := by
    rintro rfl rfl nanD nanE
    obtain ⟨-, -, -, set⟩ := hash_nan platform nanD heap
    obtain ⟨-, -, -, set'⟩ := hash_nan platform nanE heap
    have agree := respects.lightWeightSet (sameValue_nans nanD nanE heap)
    rwa [AgreesOn, set, set'] at agree
  bigInts a b bigint := by
    rintro rfl rfl different objectA objectB
    have agree := respects.lightWeightSet (by
      rw [sameValue_heapObject different, objectA, objectB]
      exact (bigIntsAreEqual_iff bigint bigint).mpr rfl)
    exact (ObjectHashes.hash_bigInts objectA objectB).mp agree

theorem linkedHash_agreesOn (respectful : Respectful platform heap x y)
    (same : sameValueZero heap x y = true) : AgreesOn (linkedHash platform) heap x y := by
  by_cases self : x = y
  · subst self
    exact (linkedHash_objects platform).agreesOn_self fun a eq => respectful.identity a eq eq
  · rcases sameValueZero_cases same self with ⟨n, isX, isY⟩ | nans | contents
    · rw [AgreesOn, linkedHash_of_isInt platform isX, linkedHash_of_isInt platform isY]
    · exact (agreesOn_nans platform respectful nans).1
    · exact (linkedHash_objects platform).agreesOn_sameContents platform contents
        (fun _ _ equal => equal) respectful fun _ _ _ _ _ _ _ _ => rfl

theorem taggedNodeHash_agreesOn (respectful : Respectful platform heap x y)
    (same : sameValue heap x y = true) : AgreesOn (taggedNodeHash platform) heap x y := by
  by_cases self : x = y
  · subst self
    exact (taggedNodeHash_objects platform).agreesOn_self fun a eq => respectful.identity a eq eq
  · rcases sameValue_cases same self with ⟨n, d, pair⟩ | nans | contents
    · obtain ⟨isX, isY⟩ := isInt_of_intAndDouble pair
      rw [AgreesOn, taggedNodeHash_of_isInt platform isX, taggedNodeHash_of_isInt platform isY]
    · exact (agreesOn_nans platform respectful nans).2.1
    · exact (taggedNodeHash_objects platform).agreesOn_sameContents platform contents
        (fun _ _ => stringsAreEqual_of_stringCompare) respectful fun _ _ _ _ _ _ _ _ => rfl

theorem lightWeightMapHash_agreesOn (respectful : Respectful platform heap x y)
    (same : sameValue heap x y = true) : AgreesOn (lightWeightMapHash platform) heap x y := by
  by_cases self : x = y
  · subst self
    exact (lightWeightMapHash_objects platform).agreesOn_self fun a eq =>
      respectful.identity a eq eq
  · rcases sameValue_cases same self with ⟨n, d, pair⟩ | nans | contents
    · exact (lightWeightMap_agreesOn platform pair heap).mpr fun nonzero =>
        respectful.numbers n d nonzero pair
    · exact (agreesOn_nans platform respectful nans).2.2.1
    · exact (lightWeightMapHash_objects platform).agreesOn_sameContents platform contents
        (fun _ _ => stringsAreEqual_of_stringCompare) respectful fun _ _ _ _ _ _ _ _ => rfl

theorem lightWeightSetHash_agreesOn (respectful : Respectful platform heap x y)
    (same : sameValue heap x y = true) : AgreesOn (lightWeightSetHash platform) heap x y := by
  by_cases self : x = y
  · subst self
    exact (lightWeightSetHash_objects platform).agreesOn_self fun a eq =>
      respectful.identity a eq eq
  · rcases sameValue_cases same self with ⟨n, d, pair⟩ | nans | contents
    · exact (lightWeightSet_agreesOn platform pair heap).mpr fun nonzero =>
        respectful.numbers n d nonzero pair
    · exact (agreesOn_nans platform respectful nans).2.2.2
    · exact (lightWeightSetHash_objects platform).agreesOn_sameContents platform contents
        (fun _ _ => stringsAreEqual_of_stringCompare) respectful respectful.bigInts

/-- The hashes respect the equalities exactly in the cases of `Respectful`. -/
theorem respectsEquality_iff (platform : Platform) (heap : KeyHeap) (x y : TaggedKey) :
    RespectsEquality platform heap x y ↔ Respectful platform heap x y where
  mp := respectful_of_respects
  mpr respectful :=
    { linkedHash := linkedHash_agreesOn respectful
      taggedNode := taggedNodeHash_agreesOn respectful
      lightWeightMap := lightWeightMapHash_agreesOn respectful
      lightWeightSet := lightWeightSetHash_agreesOn respectful }

/-- A platform whose `GetHash32` is a polynomial in the bytes. -/
def polynomialPlatform : Platform where
  getHash32 bytes := bytes.foldl (fun hash byte => hash * 31 + byte.toUInt32) 0
  castOutOfRange _ := 0

/-- A heap where the BigInt one stands at each address. -/
def heapOfOnes : KeyHeap where
  object _ := .bigInt ⟨false, [1]⟩
  randomState := 1

/-- The map hashes the `int` five and the double five differently, and the set two BigInts that are
    one. -/
theorem respectsEquality_fails :
    ¬RespectsEquality polynomialPlatform heapOfOnes (.int 5)
        (.double ⟨0x4014000000000000, by decide⟩) ∧
      ¬RespectsEquality polynomialPlatform heapOfOnes (.heapObject ⟨8, by decide, by decide⟩)
        (.heapObject ⟨16, by decide, by decide⟩) := by
  constructor
  · intro respects
    have pair : IntAndDouble (.int 5) (.double ⟨0x4014000000000000, by decide⟩) 5
        ⟨0x4014000000000000, by decide⟩ := ⟨by decide, .inl ⟨rfl, rfl⟩⟩
    have hashed := (lightWeightMap_agreesOn polynomialPlatform pair heapOfOnes).mp
      (respects.lightWeightMap (sameValue_of_intAndDouble pair heapOfOnes)) (by decide)
    exact absurd hashed (by decide)
  · intro respects
    have hashed := respects.lightWeightSet (by decide)
    rw [AgreesOn, (lightWeightSetHash_objects _).object, (lightWeightSetHash_objects _).object,
      ObjectHashes.hash_bigInts rfl rfl] at hashed
    exact absurd hashed (by decide)

end KeyHash

end ArkRuntime
