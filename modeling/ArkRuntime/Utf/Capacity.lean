import ArkRuntime.Utf.Encoding

/-!
# The capacity of `ConvertRegionUtf16ToUtf8`

The code points of a region are stored one by one. `EncodeUTF8` does not write a code point for which there is
no room, but the loop goes on behind it, and the bytes of a zero are written without asking.
-/

namespace ArkRuntime

namespace Utf

/-- The code points that `DecodeUTF16` reads from the index `i` on. -/
def readCodePoints (utf16 : List UInt16) (stop : Nat) : Nat → Nat → Option (List Nat)
  | 0, _ => none
  | fuel + 1, i =>
      if i < stop then do
        let (codepoint, i) ← decodeUTF16 utf16 stop i
        let rest ← readCodePoints utf16 stop fuel (i + 1)
        return codepoint :: rest
      else some []

/-- The code points of a region. -/
def codePoints (utf16 : List UInt16) (start utf16Len : Nat) : Option (List Nat) :=
  readCodePoints utf16 (start + utf16Len) (utf16Len + 1) start

/-- The encoding of a code point, with the two of the zero. -/
def encodePoint (modify isWriteBuffer : Bool) (c : Nat) : List UInt8 :=
  if c = 0 then
    if isWriteBuffer then [0x00]
    else if modify then [0xC0, 0x80]
    else []
  else utf8Bytes c

/-- The encoding of a text. -/
def encode (modify isWriteBuffer : Bool) (cps : List Nat) : List UInt8 :=
  cps.flatMap (encodePoint modify isWriteBuffer)

variable {utf16 : List UInt16} {stop utf8Len i c : Nat} {modify isWriteBuffer : Bool} {cps p : List Nat}

/-! ## Reading -/

theorem unitAt_of_lt (utf16 : List UInt16) (index : Nat) (inside : index < utf16.length) :
    ∃ u, unitAt utf16 index = some u ∧ u < 2 ^ 16 :=
  ⟨utf16[index].toNat, by simp [unitAt, inside], UInt16.toNat_lt _⟩

/-- What `DecodeUTF16` can read: a unit, or a pair of surrogates inside of the region. -/
theorem decodeUTF16_spec (inside : i < stop) (there : stop ≤ utf16.length) :
    ∃ high, unitAt utf16 i = some high ∧ high < 2 ^ 16 ∧
      ((decodeUTF16 utf16 stop i = some (high, i) ∧
          (isUTF16HighSurrogate high = true → i + 1 < stop →
            ∀ low, unitAt utf16 (i + 1) = some low → isUTF16LowSurrogate low = false)) ∨
        ∃ low, unitAt utf16 (i + 1) = some low ∧ i + 1 < stop ∧
          isUTF16HighSurrogate high = true ∧ isUTF16LowSurrogate low = true ∧
          decodeUTF16 utf16 stop i = some ((high - 0xD800) * 1024 + (low - 0xDC00) + 0x10000, i + 1)) := by
  obtain ⟨high, read, small⟩ := unitAt_of_lt utf16 i (by omega)
  refine ⟨high, read, small, ?_⟩
  by_cases single : high &&& surrogateMask ≠ decodeLeadLow ∨ !isUTF16HighSurrogate high ∨ i = stop - 1
  · have masked : isUTF16HighSurrogate high = true → high &&& surrogateMask = decodeLeadLow := by
      have all : ∀ r : Fin 1024, (0xD800 + r.val) &&& surrogateMask = decodeLeadLow := by decide +kernel
      intro isHigh
      have bounds := isUTF16HighSurrogate_iff.mp isHigh
      have whole := all ⟨high - 0xD800, by omega⟩
      rwa [Nat.add_sub_cancel' bounds.1] at whole
    refine .inl ⟨by simp only [decodeUTF16, read, Option.bind_eq_bind, Option.bind_some, if_pos single]; rfl, ?_⟩
    intro isHigh more
    simp only [masked isHigh, isHigh] at single
    simp at single
    omega
  · obtain ⟨low, next, -⟩ := unitAt_of_lt utf16 (i + 1) (by simp at single; omega)
    have isHigh : isUTF16HighSurrogate high = true := by simp at single; exact single.2.1
    cases paired : isUTF16LowSurrogate low with
    | false =>
      refine .inl ⟨?_, fun _ _ other found => ?_⟩
      · simp only [decodeUTF16, read, next, Option.bind_eq_bind, Option.bind_some, if_neg single, paired]
        rfl
      · rw [next] at found
        cases found
        exact paired
    | true =>
      refine .inr ⟨low, next, by simp at single; omega, isHigh, paired, ?_⟩
      simp only [decodeUTF16, read, next, Option.bind_eq_bind, Option.bind_some, if_neg single, paired,
        Nat.shiftLeft_eq]
      rfl

theorem decodeUTF16_lt (there : stop ≤ utf16.length) (inside : i < stop) :
    ∃ c i', decodeUTF16 utf16 stop i = some (c, i') ∧ i ≤ i' ∧ i' < stop ∧ c < 2 ^ 21 := by
  obtain ⟨high, -, small, ⟨read, -⟩ | ⟨low, -, more, isHigh, isLow, read⟩⟩ := decodeUTF16_spec inside there
  · exact ⟨high, i, read, Nat.le_refl _, inside, by omega⟩
  · have := isUTF16HighSurrogate_iff.mp isHigh
    have := isUTF16LowSurrogate_iff.mp isLow
    exact ⟨_, i + 1, read, by omega, more, by omega⟩

theorem readCodePoints_some (there : stop ≤ utf16.length) {fuel : Nat} (enough : stop - i < fuel) :
    ∃ cps, readCodePoints utf16 stop fuel i = some cps ∧ ∀ c ∈ cps, c < 2 ^ 21 := by
  induction fuel generalizing i with
  | zero => omega
  | succ fuel ih =>
    rw [readCodePoints]
    by_cases inside : i < stop
    · obtain ⟨c, i', read, above, -, small⟩ := decodeUTF16_lt there inside
      obtain ⟨cps, rest, bound⟩ := ih (i := i' + 1) (by omega)
      refine ⟨c :: cps, by rw [if_pos inside, read]; simp [rest], ?_⟩
      intro c' mem
      rcases List.mem_cons.mp mem with rfl | later
      · exact small
      · exact bound c' later
    · exact ⟨[], if_neg inside, by simp⟩

/-- Every region of an array has code points. -/
theorem codePoints_some {start utf16Len : Nat} (there : start + utf16Len ≤ utf16.length) :
    ∃ cps, codePoints utf16 start utf16Len = some cps ∧ ∀ c ∈ cps, c < 2 ^ 21 :=
  readCodePoints_some there (by omega)

/-- The loop stores the code points in order. -/
theorem convertRegion_eq (fuel i : Nat) (state : Buffer × Nat) :
    convertRegion utf16 stop utf8Len modify isWriteBuffer fuel i state =
      (readCodePoints utf16 stop fuel i).map fun cps =>
        cps.foldl (storeCodePoint utf8Len modify isWriteBuffer) state := by
  induction fuel generalizing i state with
  | zero => rfl
  | succ fuel ih =>
    rw [convertRegion, readCodePoints]
    by_cases inside : i < stop
    · rw [if_pos inside, if_pos inside]
      cases decodeUTF16 utf16 stop i with
      | none => rfl
      | some read =>
        obtain ⟨c, i'⟩ := read
        simp only [Option.bind_eq_bind, Option.bind_some, ih]
        cases readCodePoints utf16 stop fuel (i' + 1) with
        | none => rfl
        | some cps => rfl
    · rw [if_neg inside, if_neg inside]
      rfl

/-! ## Storing -/

/-- What storing a code point writes at `pos`: a code point other than zero needs room. -/
def stored (utf8Len : Nat) (modify isWriteBuffer : Bool) (pos c : Nat) : List UInt8 :=
  if c = 0 ∨ pos + (utf8Bytes c).length ≤ utf8Len then encodePoint modify isWriteBuffer c else []

def storedAll (utf8Len : Nat) (modify isWriteBuffer : Bool) : Nat → List Nat → List UInt8
  | _, [] => []
  | pos, c :: cps =>
      let bytes := stored utf8Len modify isWriteBuffer pos c
      bytes ++ storedAll utf8Len modify isWriteBuffer (pos + bytes.length) cps

theorem storeCodePoint_spec (utf8Len : Nat) (modify isWriteBuffer : Bool) (small : c < 2 ^ 21) (out : Buffer)
    (pos : Nat) :
    ∃ w, storeCodePoint utf8Len modify isWriteBuffer (out, pos) c =
        (out ++ w, pos + (stored utf8Len modify isWriteBuffer pos c).length) ∧
      Places w pos (stored utf8Len modify isWriteBuffer pos c) := by
  by_cases zero : c = 0
  · subst zero
    simp only [storeCodePoint, stored, encodePoint, true_or, if_true]
    cases isWriteBuffer with
    | true => exact ⟨[(pos, 0)], rfl, places_single pos 0⟩
    | false =>
      cases modify with
      | true =>
        exact ⟨[(pos, utf8TwoFirst)] ++ [(pos + 1, utf8TwoSecond)], rfl,
          (places_single pos utf8TwoFirst).append (places_single (pos + 1) utf8TwoSecond)⟩
      | false => exact ⟨[], by simp, places_nil pos⟩
  · simp only [storeCodePoint, stored, encodePoint, zero, false_or, if_false]
    by_cases fits : pos + (utf8Bytes c).length ≤ utf8Len
    · obtain ⟨w, write, places⟩ := encodeUTF8_of_fits small fits out
      rw [if_pos fits]
      exact ⟨w, by rw [write], places⟩
    · rw [if_neg fits, encodeUTF8_of_not_fits (by omega)]
      exact ⟨[], by simp, places_nil pos⟩

theorem storeAll_spec (utf8Len : Nat) (modify isWriteBuffer : Bool) (small : ∀ c ∈ cps, c < 2 ^ 21)
    (out : Buffer) (pos : Nat) :
    ∃ w, cps.foldl (storeCodePoint utf8Len modify isWriteBuffer) (out, pos) =
        (out ++ w, pos + (storedAll utf8Len modify isWriteBuffer pos cps).length) ∧
      Places w pos (storedAll utf8Len modify isWriteBuffer pos cps) := by
  induction cps generalizing out pos with
  | nil => exact ⟨[], by simp [storedAll], places_nil pos⟩
  | cons c cps ih =>
    obtain ⟨w, store, places⟩ := storeCodePoint_spec utf8Len modify isWriteBuffer (small c (by simp))
      out pos
    obtain ⟨w', rest, after⟩ := ih (fun c mem => small c (by simp [mem])) (out ++ w)
      (pos + (stored utf8Len modify isWriteBuffer pos c).length)
    refine ⟨w ++ w', ?_, places.append after⟩
    rw [List.foldl_cons, store, rest, storedAll, List.append_assoc, List.length_append, Nat.add_assoc]

/-! ## The longest prefix that fits -/

/-- The code points up to the first for which there is no room, and the others. -/
def fitting (modify isWriteBuffer : Bool) : Nat → List Nat → List Nat × List Nat
  | _, [] => ([], [])
  | room, c :: cps =>
      let size := (encodePoint modify isWriteBuffer c).length
      if size ≤ room then
        let (prefixed, rest) := fitting modify isWriteBuffer (room - size) cps
        (c :: prefixed, rest)
      else ([], c :: cps)

structure LongestFit (modify isWriteBuffer : Bool) (room : Nat) (cps p : List Nat) : Prop where
  isPrefix : p <+: cps
  fits : (encode modify isWriteBuffer p).length ≤ room
  longest : ∀ q, q <+: cps → (encode modify isWriteBuffer q).length ≤ room → q <+: p

theorem encode_cons (c : Nat) (cps : List Nat) :
    encode modify isWriteBuffer (c :: cps) =
      encodePoint modify isWriteBuffer c ++ encode modify isWriteBuffer cps := rfl

theorem fitting_append (modify isWriteBuffer : Bool) (room : Nat) (cps : List Nat) :
    (fitting modify isWriteBuffer room cps).1 ++ (fitting modify isWriteBuffer room cps).2 = cps := by
  induction cps generalizing room with
  | nil => rfl
  | cons c cps ih =>
    rw [fitting]
    split
    · simp [ih]
    · rfl

theorem longestFit_fitting (modify isWriteBuffer : Bool) (room : Nat) (cps : List Nat) :
    LongestFit modify isWriteBuffer room cps (fitting modify isWriteBuffer room cps).1 := by
  induction cps generalizing room with
  | nil => exact ⟨List.prefix_refl _, by simp [fitting, encode], fun q isPrefix _ => isPrefix⟩
  | cons c cps ih =>
    by_cases fits : (encodePoint modify isWriteBuffer c).length ≤ room
    · have step := ih (room - (encodePoint modify isWriteBuffer c).length)
      rw [fitting, if_pos fits]
      constructor
      · exact List.cons_prefix_cons.mpr ⟨rfl, step.isPrefix⟩
      · have := step.fits
        rw [encode_cons, List.length_append]
        omega
      · intro q isPrefix inside
        cases q with
        | nil => exact List.nil_prefix
        | cons d q =>
          obtain ⟨rfl, rest⟩ := List.cons_prefix_cons.mp isPrefix
          rw [encode_cons, List.length_append] at inside
          exact List.cons_prefix_cons.mpr ⟨rfl, step.longest q rest (by omega)⟩
    · rw [fitting, if_neg fits]
      refine ⟨List.nil_prefix, by simp [encode], ?_⟩
      intro q isPrefix inside
      cases q with
      | nil => exact List.nil_prefix
      | cons d q =>
        obtain ⟨rfl, -⟩ := List.cons_prefix_cons.mp isPrefix
        rw [encode_cons, List.length_append] at inside
        omega

/-- There is one longest prefix. -/
theorem LongestFit.unique {room : Nat} {q : List Nat} (first : LongestFit modify isWriteBuffer room cps p)
    (second : LongestFit modify isWriteBuffer room cps q) : p = q :=
  (second.longest p first.isPrefix first.fits).eq_of_length_le
    (first.longest q second.isPrefix second.fits).length_le

/-- A code point that is passed over when `room` bytes are left. -/
def Skipped (modify isWriteBuffer : Bool) (room c : Nat) : Prop :=
  encodePoint modify isWriteBuffer c = [] ∨ (c ≠ 0 ∧ room < utf8Length c)

theorem stored_eq_nil_iff {pos : Nat} (below : pos ≤ utf8Len) :
    stored utf8Len modify isWriteBuffer pos c = [] ↔ Skipped modify isWriteBuffer (utf8Len - pos) c := by
  rw [stored, Skipped, length_utf8Bytes]
  by_cases zero : c = 0
  · simp [zero]
  · have present : encodePoint modify isWriteBuffer c ≠ [] := by
      intro none
      have length := length_utf8Bytes c
      have := utf8Length_pos c
      rw [encodePoint, if_neg zero] at none
      rw [none, List.length_nil] at length
      omega
    by_cases fits : pos + utf8Length c ≤ utf8Len
    · simp only [zero, fits, or_true, if_true, present, false_or, not_false_eq_true, true_and, ne_eq, false_iff]
      omega
    · simp only [zero, fits, or_false, if_false, present, false_or, not_false_eq_true, true_and, ne_eq, true_iff]
      omega

theorem storedAll_eq_nil_iff {pos : Nat} (below : pos ≤ utf8Len) :
    storedAll utf8Len modify isWriteBuffer pos cps = [] ↔
      ∀ c ∈ cps, Skipped modify isWriteBuffer (utf8Len - pos) c := by
  induction cps with
  | nil => simp [storedAll]
  | cons c cps ih =>
    rw [storedAll, List.append_eq_nil_iff, List.forall_mem_cons, ← stored_eq_nil_iff below]
    constructor
    · rintro ⟨none, rest⟩
      rw [none] at rest
      exact ⟨none, ih.mp rest⟩
    · rintro ⟨none, rest⟩
      rw [none]
      exact ⟨rfl, ih.mpr rest⟩

/-- What fits is stored, then the rest takes its turn with the room that is left. -/
theorem storedAll_fitting (modify isWriteBuffer : Bool) (cps : List Nat) {pos : Nat} (below : pos ≤ utf8Len) :
    storedAll utf8Len modify isWriteBuffer pos cps =
      encode modify isWriteBuffer (fitting modify isWriteBuffer (utf8Len - pos) cps).1 ++
        storedAll utf8Len modify isWriteBuffer
          (pos + (encode modify isWriteBuffer (fitting modify isWriteBuffer (utf8Len - pos) cps).1).length)
          (fitting modify isWriteBuffer (utf8Len - pos) cps).2 := by
  induction cps generalizing pos with
  | nil => rfl
  | cons c cps ih =>
    by_cases fits : (encodePoint modify isWriteBuffer c).length ≤ utf8Len - pos
    · have all : stored utf8Len modify isWriteBuffer pos c = encodePoint modify isWriteBuffer c := by
        rw [stored]
        by_cases zero : c = 0
        · rw [if_pos (.inl zero)]
        · rw [encodePoint, if_neg zero] at fits
          rw [if_pos (.inr (by omega))]
      have step := @ih (pos + (encodePoint modify isWriteBuffer c).length) (by omega)
      rw [fitting, if_pos fits, storedAll, all, step, encode_cons, List.append_assoc, List.length_append,
        Nat.add_assoc, Nat.sub_add_eq]
    · rw [fitting, if_neg fits]
      simp [encode]

/-! ## How much of a region is written -/

/-- All writes are below the capacity, and the buffer holds the encoding of the longest prefix that fits. -/
structure FillsWith (utf8Len : Nat) (modify isWriteBuffer : Bool) (cps : List Nat) (out : Buffer) : Prop where
  inside : ∀ k b, (k, b) ∈ out → k < utf8Len
  longest : ∃ p, LongestFit modify isWriteBuffer utf8Len cps p ∧ Places out 0 (encode modify isWriteBuffer p)

theorem Places.unique {w : Buffer} {pos : Nat} {bytes more : List UInt8} (first : Places w pos bytes)
    (second : Places w pos more) : bytes = more := by
  apply List.ext_getElem?
  intro k
  have left := first (pos + k)
  have right := second (pos + k)
  rw [if_neg (by omega), Nat.add_sub_cancel_left] at left right
  rw [← left, right]

theorem fillsWith_iff {out : Buffer} (places : Places out 0 (storedAll utf8Len modify isWriteBuffer 0 cps)) :
    FillsWith utf8Len modify isWriteBuffer cps out ↔
      ∀ c ∈ (fitting modify isWriteBuffer utf8Len cps).2,
        Skipped modify isWriteBuffer
          (utf8Len - (encode modify isWriteBuffer (fitting modify isWriteBuffer utf8Len cps).1).length) c := by
  have fit := longestFit_fitting modify isWriteBuffer utf8Len cps
  have split := storedAll_fitting modify isWriteBuffer cps (Nat.zero_le utf8Len)
  rw [Nat.sub_zero, Nat.zero_add] at split
  rw [← storedAll_eq_nil_iff fit.fits]
  constructor
  · rintro ⟨-, p, longest, holds⟩
    rw [← fit.unique longest] at holds
    have same := places.unique holds
    rw [split] at same
    exact List.append_right_eq_self.mp same
  · intro none
    rw [none, List.append_nil] at split
    rw [split] at places
    refine ⟨?_, _, fit, places⟩
    intro k b mem
    have := (places.written_iff (k := k)).mp ⟨b, mem⟩
    have := fit.fits
    omega

/-- `ConvertRegionUtf16ToUtf8` stores the code points of the region. -/
theorem convertRegionUtf16ToUtf8_spec (modify isWriteBuffer : Bool) {start utf16Len : Nat}
    (region : start + utf16Len ≤ utf16.length) (room : utf8Len ≠ 0) :
    ∃ cps out, codePoints utf16 start utf16Len = some cps ∧ (∀ c ∈ cps, c < 2 ^ 21) ∧
      convertRegionUtf16ToUtf8 (some utf16) (some []) utf16Len utf8Len start modify isWriteBuffer =
        some (some out, (storedAll utf8Len modify isWriteBuffer 0 cps).length) ∧
      Places out 0 (storedAll utf8Len modify isWriteBuffer 0 cps) := by
  obtain ⟨cps, read, small⟩ := codePoints_some region
  obtain ⟨w, store, places⟩ := storeAll_spec utf8Len modify isWriteBuffer small [] 0
  rw [List.nil_append, Nat.zero_add] at store
  refine ⟨cps, w, read, small, ?_, places⟩
  have loop : convertRegion utf16 (start + utf16Len) utf8Len modify isWriteBuffer (utf16Len + 1) start ([], 0) =
      some (w, (storedAll utf8Len modify isWriteBuffer 0 cps).length) := by
    rw [convertRegion_eq, show readCodePoints utf16 (start + utf16Len) (utf16Len + 1) start = some cps from read,
      Option.map_some, store]
  simp only [convertRegionUtf16ToUtf8, if_neg room, loop, Option.map_some]

/-- The capacity is kept and the longest prefix is written if and only if the capacity is zero or nothing behind
    that prefix is written. -/
theorem convertRegionUtf16ToUtf8_fills_iff (utf16 : List UInt16) (start utf16Len utf8Len : Nat)
    (modify isWriteBuffer : Bool) (region : start + utf16Len ≤ utf16.length) :
    ∃ cps out utf8Pos, codePoints utf16 start utf16Len = some cps ∧
      convertRegionUtf16ToUtf8 (some utf16) (some []) utf16Len utf8Len start modify isWriteBuffer =
        some (some out, utf8Pos) ∧
      (FillsWith utf8Len modify isWriteBuffer cps out ↔
        utf8Len = 0 ∨ ∀ c ∈ (fitting modify isWriteBuffer utf8Len cps).2,
          Skipped modify isWriteBuffer
            (utf8Len - (encode modify isWriteBuffer (fitting modify isWriteBuffer utf8Len cps).1).length) c) := by
  by_cases none : utf8Len = 0
  · subst none
    obtain ⟨cps, read, -⟩ := codePoints_some region
    have fit := longestFit_fitting modify isWriteBuffer 0 cps
    refine ⟨cps, [], 0, read, rfl, iff_of_true ⟨by simp, _, fit, ?_⟩ (.inl rfl)⟩
    rw [List.length_eq_zero_iff.mp (Nat.le_zero.mp fit.fits)]
    exact places_nil 0
  · obtain ⟨cps, out, read, -, run, places⟩ := convertRegionUtf16ToUtf8_spec modify isWriteBuffer region none
    refine ⟨cps, out, _, read, run, ?_⟩
    rw [fillsWith_iff places]
    simp [none]

/-- A zero is written as two bytes into a buffer of one. -/
theorem convertRegionUtf16ToUtf8_overruns :
    ∃ out utf8Pos, codePoints [0] 0 1 = some [0] ∧
      convertRegionUtf16ToUtf8 (some [0]) (some []) 1 1 0 true false = some (some out, utf8Pos) ∧
      ¬FillsWith 1 true false [0] out := by
  refine ⟨[(0, 0xC0), (1, 0x80)], 2, by decide, by decide, ?_⟩
  intro fills
  exact absurd (fills.inside 1 0x80 (by decide)) (by decide)

theorem convertRegionUtf16ToUtf8_fills_letters :
    ∃ cps out utf8Pos, codePoints [97, 98] 0 2 = some cps ∧
      convertRegionUtf16ToUtf8 (some [97, 98]) (some []) 2 1 0 true false = some (some out, utf8Pos) ∧
      (FillsWith 1 true false cps out ↔
        1 = 0 ∨ ∀ c ∈ (fitting true false 1 cps).2,
          Skipped true false (1 - (encode true false (fitting true false 1 cps).1).length) c) :=
  convertRegionUtf16ToUtf8_fills_iff [97, 98] 0 2 1 true false (by decide)

end Utf

end ArkRuntime
