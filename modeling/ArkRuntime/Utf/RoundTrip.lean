import ArkRuntime.Utf.Capacity

/-!
# Sizes and decoding

`Utf16ToUtf8Size` counts the bytes that `ConvertRegionUtf16ToUtf8` writes into a buffer that is large enough,
and `ConvertUtf8ToUnicodeChar` reads the code points back from them.
-/

namespace ArkRuntime

namespace Utf

variable {utf16 : List UInt16} {utf8Len i c : Nat} {modify : Bool} {cps : List Nat}

/-! ## `Utf16ToUtf8Size` -/

theorem length_encodePoint_zero (modify : Bool) :
    (encodePoint modify false 0).length = if modify then 2 else 0 := by
  cases modify with
  | true => rfl
  | false => rfl

theorem length_encodePoint (positive : c ≠ 0) (modify : Bool) :
    (encodePoint modify false c).length = utf8Length c := by
  rw [encodePoint, if_neg positive, length_utf8Bytes]

/-- A unit that is read alone counts as its encoding. -/
theorem addSizes_single {high : Nat} (modify : Bool) (fuel res : Nat) (inside : i < utf16.length)
    (read : unitAt utf16 i = some high) (small : high < 2 ^ 16)
    (alone : isUTF16HighSurrogate high = true → i + 1 < utf16.length →
      ∀ low, unitAt utf16 (i + 1) = some low → isUTF16LowSurrogate low = false) :
    addSizes .documented utf16 utf16.length modify (fuel + 1) i res =
      addSizes .documented utf16 utf16.length modify fuel (i + 1)
        (res + (encodePoint modify false high).length) := by
  simp only [addSizes, if_pos inside, read, Option.bind_eq_bind, Option.bind_some]
  have forms := utf8Bytes_cases high
  by_cases zero : high = 0
  · subst zero
    rw [if_pos rfl, length_encodePoint_zero]
    cases modify with
    | true => rfl
    | false => rfl
  rw [if_neg zero, length_encodePoint zero]
  by_cases one : high ≤ 0x7f
  · rw [if_pos (show high ≤ utf8OneMax from one), show utf8Length high = 1 by omega]
  rw [if_neg (show ¬high ≤ utf8OneMax from one)]
  by_cases two : high ≤ 0x7ff
  · rw [if_pos (show high ≤ utf8TwoMax from two), show utf8Length high = 2 by omega]
  rw [if_neg (show ¬high ≤ utf8TwoMax from two), show utf8Length high = 3 by omega]
  by_cases plain : high < Constants.documented.hiSurrogateMin ∨ Constants.documented.hiSurrogateMax < high
  · rw [if_pos plain]
  rw [if_neg plain]
  by_cases more : i < utf16.length - 1
  · obtain ⟨low, after, -⟩ := unitAt_of_lt utf16 (i + 1) (by omega)
    have bounds : ¬(high < 0xD800 ∨ 0xDBFF < high) := plain
    have isHigh : isUTF16HighSurrogate high = true := isUTF16HighSurrogate_iff.mpr (by omega)
    have notLow := alone isHigh (by omega) low after
    have unpaired : ¬(Constants.documented.loSurrogateMin ≤ low ∧ low ≤ Constants.documented.loSurrogateMax) := by
      intro bounds
      rw [isUTF16LowSurrogate_iff.mpr bounds] at notLow
      cases notLow
    rw [if_pos more, after, Option.bind_some, if_neg unpaired]
  · rw [if_neg more]

/-- A pair counts as its encoding. -/
theorem addSizes_pair {high low : Nat} (modify : Bool) (fuel res : Nat) (more : i + 1 < utf16.length)
    (read : unitAt utf16 i = some high) (after : unitAt utf16 (i + 1) = some low)
    (isHigh : isUTF16HighSurrogate high = true) (isLow : isUTF16LowSurrogate low = true) :
    addSizes .documented utf16 utf16.length modify (fuel + 1) i res =
      addSizes .documented utf16 utf16.length modify fuel (i + 2)
        (res + (encodePoint modify false ((high - 0xD800) * 1024 + (low - 0xDC00) + 0x10000)).length) := by
  have highBounds := isUTF16HighSurrogate_iff.mp isHigh
  have lowBounds := isUTF16LowSurrogate_iff.mp isLow
  have forms := utf8Bytes_cases ((high - 0xD800) * 1024 + (low - 0xDC00) + 0x10000)
  have plain : ¬(high < Constants.documented.hiSurrogateMin ∨ Constants.documented.hiSurrogateMax < high) := by
    have : ¬(high < 0xD800 ∨ 0xDBFF < high) := by omega
    exact this
  have paired : Constants.documented.loSurrogateMin ≤ low ∧ low ≤ Constants.documented.loSurrogateMax := lowBounds
  have one : ¬high ≤ utf8OneMax := by
    unfold utf8OneMax
    omega
  have two : ¬high ≤ utf8TwoMax := by
    unfold utf8TwoMax
    omega
  rw [length_encodePoint (by omega),
    show utf8Length ((high - 0xD800) * 1024 + (low - 0xDC00) + 0x10000) = 4 by omega]
  simp only [addSizes, if_pos (show i < utf16.length by omega), read, Option.bind_eq_bind, Option.bind_some]
  rw [if_neg (show high ≠ 0 by omega), if_neg one, if_neg two, if_neg plain,
    if_pos (show i < utf16.length - 1 by omega), after, Option.bind_some, if_pos paired]

/-- The loop counts the encoding of each code point that `DecodeUTF16` reads. -/
theorem addSizes_eq (modify : Bool) (fuel i res : Nat) :
    addSizes .documented utf16 utf16.length modify fuel i res =
      (readCodePoints utf16 utf16.length fuel i).map fun cps => res + (encode modify false cps).length := by
  induction fuel generalizing i res with
  | zero => rfl
  | succ fuel ih =>
    rw [readCodePoints]
    by_cases inside : i < utf16.length
    · have next (c j : Nat) :
          addSizes .documented utf16 utf16.length modify fuel j (res + (encodePoint modify false c).length) =
            ((readCodePoints utf16 utf16.length fuel j).bind fun rest => some (c :: rest)).map fun cps =>
              res + (encode modify false cps).length := by
        rw [ih]
        cases readCodePoints utf16 utf16.length fuel j with
        | none => rfl
        | some cps => simp only [Option.map_some, Option.bind_some, encode_cons, List.length_append, Nat.add_assoc]
      rw [if_pos inside]
      obtain ⟨high, read, small, ⟨decode, alone⟩ | ⟨low, after, more, isHigh, isLow, decode⟩⟩ :=
        decodeUTF16_spec inside (Nat.le_refl _)
      · rw [addSizes_single modify fuel res inside read small alone, next, decode]
        rfl
      · rw [addSizes_pair modify fuel res more read after isHigh isLow, next, decode]
        rfl
    · rw [addSizes, if_neg inside, if_neg inside]
      simp [encode]

theorem codePoints_single {u : UInt16} : codePoints [u] 0 1 = some [u.toNat] := by
  simp [codePoints, readCodePoints, decodeUTF16, unitAt]

/-- The size is that of the encoding, and one for the zero byte. -/
theorem utf16ToUtf8Size_eq (read : codePoints utf16 0 utf16.length = some cps) (modify : Bool) :
    utf16ToUtf8Size .documented utf16 utf16.length modify = some (1 + (encode modify false cps).length) := by
  have loop : addSizes .documented utf16 utf16.length modify (utf16.length + 1) 0 1 =
      some (1 + (encode modify false cps).length) := by
    rw [codePoints, Nat.zero_add] at read
    rw [addSizes_eq, read, Option.map_some]
  unfold utf16ToUtf8Size
  by_cases one : utf16.length = 1
  · obtain ⟨u, rfl⟩ := List.length_eq_one_iff.mp one
    by_cases lone : 0xD800 ≤ u.toNat ∧ u.toNat ≤ 0xDFFF
    · rw [List.length_singleton, codePoints_single] at read
      cases read
      have forms := utf8Bytes_cases u.toNat
      have size : (encode modify false [u.toNat]).length = 3 := by
        rw [encode, List.flatMap_singleton, length_encodePoint (by omega)]
        omega
      simp [size, unitAt, Constants.documented, lone]
    · have tested : (decide (Constants.documented.hiSurrogateMin ≤ u.toNat) &&
          decide (u.toNat ≤ Constants.documented.loSurrogateMax)) = false := by
        rw [Bool.and_eq_false_iff, decide_eq_false_iff_not, decide_eq_false_iff_not]
        exact not_and_or.mp lone
      have unit : unitAt [u] 0 = some u.toNat := rfl
      simp only [one, unit, tested, if_true, Option.map_some, Option.bind_eq_bind, Option.bind_some,
        Bool.false_eq_true, if_false]
      rwa [one] at loop
  · simpa [one] using loop

/-! ## `ConvertUtf8ToUnicodeChar` -/

theorem continuation_bits : ∀ x : Fin 64,
    isContinuation (0x80 + x.val) = true ∧ (0x80 + x.val) &&& 0x3f = x.val := by decide

theorem one_bits : ∀ x : Fin 128, x.val &&& bitMask1 = 0 := by decide

theorem two_bits : ∀ x : Fin 32, (0xC0 + x.val) &&& bitMask1 ≠ 0 ∧ (0xC0 + x.val) &&& bitMask3 = bitMask2 ∧
    (0xC0 + x.val) &&& 0x1f = x.val := by decide

theorem three_bits : ∀ x : Fin 16, (0xE0 + x.val) &&& bitMask1 ≠ 0 ∧ (0xE0 + x.val) &&& bitMask3 ≠ bitMask2 ∧
    (0xE0 + x.val) &&& bitMask4 = bitMask3 ∧ (0xE0 + x.val) &&& 0x0f = x.val := by decide

theorem four_bits : ∀ x : Fin 8, (0xF0 + x.val) &&& bitMask1 ≠ 0 ∧ (0xF0 + x.val) &&& bitMask3 ≠ bitMask2 ∧
    (0xF0 + x.val) &&& bitMask4 ≠ bitMask3 ∧ (0xF0 + x.val) &&& bitMask5 = bitMask4 ∧
    (0xF0 + x.val) &&& 0x0f = x.val := by decide

theorem shiftLeft_or {a b k : Nat} (below : b < 2 ^ k) : a <<< k ||| b = a * 2 ^ k + b := by
  rw [← Nat.shiftLeft_add_eq_or_of_lt below, Nat.shiftLeft_eq]

theorem join_two (c : Nat) : (c / 64) <<< 6 ||| c % 64 = c := by
  have low : c % 64 < 2 ^ 6 := Nat.mod_lt c (by decide)
  rw [shiftLeft_or low]
  omega

theorem join_three (c : Nat) : (c / 64 / 64) <<< 12 ||| (c / 64 % 64) <<< 6 ||| c % 64 = c := by
  have inner : (c / 64 % 64) <<< 6 < 2 ^ 12 := by
    rw [Nat.shiftLeft_eq]
    omega
  have first : (c / 64 / 64) <<< 12 ||| (c / 64 % 64) <<< 6 = (c / 64) <<< 6 := by
    rw [shiftLeft_or inner, Nat.shiftLeft_eq, Nat.shiftLeft_eq]
    omega
  rw [first, join_two]

theorem join_four (c : Nat) :
    (c / 64 / 64 / 64) <<< 18 ||| (c / 64 / 64 % 64) <<< 12 ||| (c / 64 % 64) <<< 6 ||| c % 64 = c := by
  have inner : (c / 64 / 64 % 64) <<< 12 < 2 ^ 18 := by
    rw [Nat.shiftLeft_eq]
    omega
  have first : (c / 64 / 64 / 64) <<< 18 ||| (c / 64 / 64 % 64) <<< 12 = (c / 64 / 64) <<< 12 := by
    rw [shiftLeft_or inner, Nat.shiftLeft_eq, Nat.shiftLeft_eq]
    omega
  rw [first, join_three]

theorem tails_one (c : Nat) : tails 1 c = [UInt8.ofNat (0x80 + c % 64)] := rfl

theorem tails_two (c : Nat) : tails 2 c = [UInt8.ofNat (0x80 + c / 64 % 64), UInt8.ofNat (0x80 + c % 64)] := rfl

theorem tails_three (c : Nat) : tails 3 c =
    [UInt8.ofNat (0x80 + c / 64 / 64 % 64), UInt8.ofNat (0x80 + c / 64 % 64), UInt8.ofNat (0x80 + c % 64)] := rfl

theorem toNat_ofNat {n : Nat} (small : n < 256) : (UInt8.ofNat n).toNat = n := by
  simpa using small

section Reading

variable (utf : Constants) {d0 d1 d2 d3 : UInt8} (more : List UInt8)

theorem convert_one (one : d0.toNat &&& bitMask1 = 0) :
    convertUtf8ToUnicodeChar utf (d0 :: more) (d0 :: more).length = some ((d0.toNat : Int), 1) := by
  have length : ¬more.length + 1 = 0 := by omega
  simp only [convertUtf8ToUnicodeChar, List.length_cons, List.getElem?_cons_zero, Option.map_some,
    Option.bind_eq_bind, Option.bind_some, length, one, if_false, if_true]
  rfl

theorem convert_two (notOne : d0.toNat &&& bitMask1 ≠ 0) (two : d0.toNat &&& bitMask3 = bitMask2)
    (first : isContinuation d1.toNat = true) :
    convertUtf8ToUnicodeChar utf (d0 :: d1 :: more) (d0 :: d1 :: more).length =
      some ((((d0.toNat &&& utf.mask5Bit) <<< utf.dataWidth ||| (d1.toNat &&& utf.mask6Bit) : Nat) : Int), 2) := by
  have length : ¬(more.length + 1 + 1 = 0) ∧ ¬(more.length + 1 + 1 < 2) := by omega
  simp only [convertUtf8ToUnicodeChar, List.length_cons, List.getElem?_cons_zero, List.getElem?_cons_succ,
    Option.map_some, Option.bind_eq_bind, Option.bind_some, length, notOne, two, first, if_false, if_true]
  rfl

theorem convert_three (notOne : d0.toNat &&& bitMask1 ≠ 0) (notTwo : d0.toNat &&& bitMask3 ≠ bitMask2)
    (three : d0.toNat &&& bitMask4 = bitMask3) (first : isContinuation d1.toNat = true)
    (second : isContinuation d2.toNat = true) :
    convertUtf8ToUnicodeChar utf (d0 :: d1 :: d2 :: more) (d0 :: d1 :: d2 :: more).length =
      some ((((d0.toNat &&& utf.mask4Bit) <<< 12 ||| (d1.toNat &&& utf.mask6Bit) <<< utf.dataWidth |||
        (d2.toNat &&& utf.mask6Bit) : Nat) : Int), 3) := by
  have length : ¬(more.length + 1 + 1 + 1 = 0) ∧ ¬(more.length + 1 + 1 + 1 < 2) ∧
      ¬(more.length + 1 + 1 + 1 < 3) := by omega
  simp only [convertUtf8ToUnicodeChar, List.length_cons, List.getElem?_cons_zero, List.getElem?_cons_succ,
    Option.map_some, Option.bind_eq_bind, Option.bind_some, length, notOne, notTwo, three, first, second,
    Bool.and_self, if_false, if_true]
  rfl

theorem convert_four (notOne : d0.toNat &&& bitMask1 ≠ 0) (notTwo : d0.toNat &&& bitMask3 ≠ bitMask2)
    (notThree : d0.toNat &&& bitMask4 ≠ bitMask3) (four : d0.toNat &&& bitMask5 = bitMask4)
    (first : isContinuation d1.toNat = true) (second : isContinuation d2.toNat = true)
    (third : isContinuation d3.toNat = true) :
    convertUtf8ToUnicodeChar utf (d0 :: d1 :: d2 :: d3 :: more) (d0 :: d1 :: d2 :: d3 :: more).length =
      some ((((d0.toNat &&& utf.mask4Bit) <<< 18 ||| (d1.toNat &&& utf.mask6Bit) <<< 12 |||
        (d2.toNat &&& utf.mask6Bit) <<< utf.dataWidth ||| (d3.toNat &&& utf.mask6Bit) : Nat) : Int), 4) := by
  have length : ¬(more.length + 1 + 1 + 1 + 1 = 0) ∧ ¬(more.length + 1 + 1 + 1 + 1 < 2) ∧
      ¬(more.length + 1 + 1 + 1 + 1 < 3) ∧ ¬(more.length + 1 + 1 + 1 + 1 < 4) := by omega
  simp only [convertUtf8ToUnicodeChar, List.length_cons, List.getElem?_cons_zero, List.getElem?_cons_succ,
    Option.map_some, Option.bind_eq_bind, Option.bind_some, length, notOne, notTwo, notThree, four, first, second,
    third, Bool.and_self, if_false, if_true]
  rfl

end Reading

/-- A continuation byte and the six bits it carries. -/
theorem continuation_byte (x : Nat) : isContinuation (UInt8.ofNat (0x80 + x % 64)).toNat = true ∧
    (UInt8.ofNat (0x80 + x % 64)).toNat &&& Constants.documented.mask6Bit = x % 64 := by
  rw [toNat_ofNat (by omega)]
  exact continuation_bits ⟨x % 64, Nat.mod_lt _ (by omega)⟩

/-- The bytes of a code point are read back, whatever comes behind them. -/
theorem convertUtf8ToUnicodeChar_utf8Bytes (small : c < 2 ^ 21) (more : List UInt8) :
    convertUtf8ToUnicodeChar .documented (utf8Bytes c ++ more) (utf8Bytes c ++ more).length =
      some ((c : Int), utf8Length c) := by
  obtain ⟨c0, low⟩ := continuation_byte c
  obtain ⟨c1, middle⟩ := continuation_byte (c / 64)
  obtain ⟨c2, high⟩ := continuation_byte (c / 64 / 64)
  obtain ⟨most, length, bytes⟩ | ⟨-, most, length, bytes⟩ | ⟨-, most, length, bytes⟩ | ⟨-, length, bytes⟩ :=
    utf8Bytes_cases c
  · have byte : (UInt8.ofNat c).toNat = c := toNat_ofNat (by omega)
    rw [bytes, length, List.singleton_append, convert_one _ _ (by rw [byte]; exact one_bits ⟨c, by omega⟩), byte]
  · have byte : (UInt8.ofNat (0xC0 + c / 64)).toNat = 0xC0 + c / 64 := toNat_ofNat (by omega)
    obtain ⟨notOne, isTwo, value⟩ := two_bits ⟨c / 64, by omega⟩
    rw [← byte] at notOne isTwo value
    rw [bytes, length, tails_one, List.cons_append, List.singleton_append,
      convert_two _ _ notOne isTwo c0, low, show Constants.documented.mask5Bit = 0x1f from rfl, value,
      show Constants.documented.dataWidth = 6 from rfl, join_two]
  · have byte : (UInt8.ofNat (0xE0 + c / 64 / 64)).toNat = 0xE0 + c / 64 / 64 := toNat_ofNat (by omega)
    obtain ⟨notOne, notTwo, isThree, value⟩ := three_bits ⟨c / 64 / 64, by omega⟩
    rw [← byte] at notOne notTwo isThree value
    rw [bytes, length, tails_two, List.cons_append, List.cons_append, List.singleton_append,
      convert_three _ _ notOne notTwo isThree c1 c0, low, middle, show Constants.documented.mask4Bit = 0x0f from rfl,
      value, show Constants.documented.dataWidth = 6 from rfl, join_three]
  · have byte : (UInt8.ofNat (0xF0 + c / 64 / 64 / 64)).toNat = 0xF0 + c / 64 / 64 / 64 := toNat_ofNat (by omega)
    obtain ⟨notOne, notTwo, notThree, isFour, value⟩ := four_bits ⟨c / 64 / 64 / 64, by omega⟩
    rw [← byte] at notOne notTwo notThree isFour value
    rw [bytes, length, tails_three, List.cons_append, List.cons_append, List.cons_append, List.singleton_append,
      convert_four _ _ notOne notTwo notThree isFour c2 c1 c0, low, middle, high,
      show Constants.documented.mask4Bit = 0x0f from rfl, value, show Constants.documented.dataWidth = 6 from rfl,
      join_four]

theorem convertUtf8ToUnicodeChar_zero (more : List UInt8) :
    convertUtf8ToUnicodeChar .documented (0xC0 :: 0x80 :: more) (0xC0 :: 0x80 :: more).length = some (0, 2) :=
  convert_two .documented more (by decide) (by decide) (by decide)

/-- `ConvertUtf8ToUnicodeChar` from the beginning of the bytes to their end. -/
def readUnicodeChars (utf : Constants) : Nat → List UInt8 → Option (List Int)
  | _, [] => some []
  | 0, _ :: _ => none
  | fuel + 1, bytes => do
      let (codepoint, size) ← convertUtf8ToUnicodeChar utf bytes bytes.length
      let rest ← readUnicodeChars utf fuel (bytes.drop size)
      return codepoint :: rest

/-- The code points that have bytes: a zero has some only if it is modified. -/
def kept (modify : Bool) (cps : List Nat) : List Nat := cps.filter fun c => modify || c != 0

theorem kept_cons (present : (modify || c != 0) = true) : kept modify (c :: cps) = c :: kept modify cps :=
  List.filter_cons_of_pos (p := fun c => modify || c != 0) present

theorem kept_cons_zero (cps : List Nat) : kept false (0 :: cps) = kept false cps := rfl

/-- A code point that is kept is the first that is read from its bytes. -/
theorem read_encodePoint (small : c < 2 ^ 21) (present : (modify || c != 0) = true) (more : List UInt8) :
    ∃ b bytes, encodePoint modify false c = b :: bytes ∧
      convertUtf8ToUnicodeChar .documented (encodePoint modify false c ++ more)
        (encodePoint modify false c ++ more).length = some ((c : Int), (encodePoint modify false c).length) := by
  by_cases zero : c = 0
  · subst zero
    have modified : modify = true := by simpa using present
    subst modified
    exact ⟨0xC0, [0x80], rfl, convertUtf8ToUnicodeChar_zero more⟩
  · have written : encodePoint modify false c = utf8Bytes c := if_neg zero
    rw [written, convertUtf8ToUnicodeChar_utf8Bytes small, length_utf8Bytes]
    cases bytes : utf8Bytes c with
    | nil =>
      have length := length_utf8Bytes c
      have := utf8Length_pos c
      rw [bytes, List.length_nil] at length
      omega
    | cons b rest => exact ⟨b, rest, rfl, rfl⟩

theorem readUnicodeChars_encode (modify : Bool) (small : ∀ c ∈ cps, c < 2 ^ 21) {fuel : Nat}
    (enough : (encode modify false cps).length ≤ fuel) :
    readUnicodeChars .documented fuel (encode modify false cps) = some ((kept modify cps).map Int.ofNat) := by
  induction cps generalizing fuel with
  | nil => cases fuel <;> rfl
  | cons c cps ih =>
    have later : ∀ c ∈ cps, c < 2 ^ 21 := fun c mem => small c (by simp [mem])
    rw [encode_cons] at enough ⊢
    by_cases present : (modify || c != 0) = true
    · obtain ⟨b, bytes, first, read⟩ := read_encodePoint (small c (by simp)) present (encode modify false cps)
      rw [List.length_append] at enough
      have positive : 0 < (encodePoint modify false c).length := by
        rw [first]
        exact Nat.zero_lt_succ _
      obtain ⟨fuel, rfl⟩ : ∃ n, fuel = n + 1 := ⟨fuel - 1, by omega⟩
      rw [kept_cons present, List.map_cons]
      have unfolded : readUnicodeChars .documented (fuel + 1)
          (encodePoint modify false c ++ encode modify false cps) =
          (readUnicodeChars .documented fuel (encode modify false cps)).map ((c : Int) :: ·) := by
        rw [readUnicodeChars, read]
        · simp only [Option.bind_eq_bind, Option.bind_some, List.drop_left]
          cases readUnicodeChars .documented fuel (encode modify false cps) with
          | none => rfl
          | some rest => rfl
        · simp [first]
      rw [unfolded, ih later (by omega)]
      rfl
    · have dropped : modify = false ∧ c = 0 := by simpa using present
      obtain ⟨rfl, rfl⟩ := dropped
      rw [kept_cons_zero]
      exact ih later enough

/-! ## The size, and the units again -/

theorem fitting_all (all : (encode modify false cps).length ≤ utf8Len) :
    storedAll utf8Len modify false 0 cps = encode modify false cps := by
  have fit := longestFit_fitting modify false utf8Len cps
  have whole : (fitting modify false utf8Len cps).1 = cps :=
    fit.isPrefix.eq_of_length_le (fit.longest cps (List.prefix_refl cps) all).length_le
  have nothing : (fitting modify false utf8Len cps).2 = [] := by
    have parts := fitting_append modify false utf8Len cps
    rw [whole] at parts
    exact List.append_right_eq_self.mp parts
  have split := storedAll_fitting modify false cps (Nat.zero_le utf8Len)
  rw [Nat.sub_zero, whole, nothing] at split
  rw [split, storedAll, List.append_nil]

/-- The size is the number of bytes written, and the bytes are read back as the code points. -/
theorem utf16ToUtf8Size_roundTrip (utf : Constants) (documented : utf = .documented) (utf16 : List UInt16)
    (modify : Bool) :
    ∃ size cps, utf16ToUtf8Size utf utf16 utf16.length modify = some size ∧
      codePoints utf16 0 utf16.length = some cps ∧
      ∀ utf8Len, size - 1 ≤ utf8Len →
        ∃ out bytes, convertRegionUtf16ToUtf8 (some utf16) (some []) utf16.length utf8Len 0 modify false =
            some (some out, size - 1) ∧
          Places out 0 bytes ∧ bytes.length = size - 1 ∧
          readUnicodeChars utf bytes.length bytes = some ((kept modify cps).map Int.ofNat) := by
  subst documented
  obtain ⟨cps, read, small⟩ := codePoints_some (show 0 + utf16.length ≤ utf16.length by omega)
  refine ⟨_, cps, utf16ToUtf8Size_eq read modify, read, ?_⟩
  rw [Nat.add_sub_cancel_left]
  intro utf8Len room
  have back := readUnicodeChars_encode modify small (Nat.le_refl _)
  by_cases none : utf8Len = 0
  · subst none
    have nothing := List.length_eq_zero_iff.mp (Nat.le_zero.mp room)
    refine ⟨[], encode modify false cps, ?_, ?_, rfl, back⟩
    · rw [nothing]
      rfl
    · rw [nothing]
      exact places_nil 0
  · obtain ⟨cps', out, read', -, run, places⟩ := convertRegionUtf16ToUtf8_spec modify false
      (show 0 + utf16.length ≤ utf16.length by omega) none
    rw [read] at read'
    cases read'
    rw [fitting_all room] at run places
    exact ⟨out, _, run, places, rfl, back⟩

theorem utf16ToUtf8Size_roundTrip_pair :
    ∃ size cps, utf16ToUtf8Size .documented [0xD83D, 0xDE00, 0] 3 true = some size ∧
      codePoints [0xD83D, 0xDE00, 0] 0 3 = some cps ∧
      ∀ utf8Len, size - 1 ≤ utf8Len →
        ∃ out bytes, convertRegionUtf16ToUtf8 (some [0xD83D, 0xDE00, 0]) (some []) 3 utf8Len 0 true false =
            some (some out, size - 1) ∧
          Places out 0 bytes ∧ bytes.length = size - 1 ∧
          readUnicodeChars .documented bytes.length bytes = some ((kept true cps).map Int.ofNat) :=
  utf16ToUtf8Size_roundTrip .documented rfl [0xD83D, 0xDE00, 0] true

end Utf

end ArkRuntime
