import ArkRuntime.Utf.UtfHelper

/-!
# What `EncodeUTF8` writes

The bytes of a code point in arithmetic, and the writes of `EncodeUTF8`, which go from the last byte to the
first.
-/

namespace ArkRuntime

namespace Utf

variable {out w v : Buffer} {pos k c : Nat} {bytes more : List UInt8}

/-! ## Buffers -/

/-- The writes put the bytes at the indices from `pos` on, and nothing elsewhere. -/
def Places (w : Buffer) (pos : Nat) (bytes : List UInt8) : Prop :=
  ∀ k, w.get k = if k < pos then none else bytes[k - pos]?

theorem get_append (out w : Buffer) (k : Nat) :
    Buffer.get (out ++ w) k = (w.get k).or (out.get k) := by
  simp only [Buffer.get, List.reverse_append, List.lookup_append]

theorem places_nil (pos : Nat) : Places [] pos [] := by
  intro k
  simp [Buffer.get]

theorem places_single (pos : Nat) (b : UInt8) : Places [(pos, b)] pos [b] := by
  intro k
  rcases Nat.lt_trichotomy k pos with below | rfl | above
  · simp [Buffer.get, below, Nat.ne_of_lt below]
  · simp [Buffer.get]
  · have outside : [b][k - pos]? = none := List.getElem?_eq_none (by simp; omega)
    simp [Buffer.get, Nat.ne_of_gt above, Nat.le_of_lt above, outside]

theorem Places.append (first : Places w pos bytes) (second : Places v (pos + bytes.length) more) :
    Places (w ++ v) pos (bytes ++ more) := by
  intro k
  rw [get_append, first k, second k]
  by_cases below : k < pos
  · rw [if_pos (show k < pos + bytes.length by omega), if_pos below, if_pos below]
    rfl
  · rw [if_neg below, if_neg below]
    by_cases inside : k - pos < bytes.length
    · rw [if_pos (by omega), List.getElem?_append_left inside]
      rfl
    · rw [if_neg (by omega), List.getElem?_append_right (by omega),
        (List.getElem?_eq_none (by omega) : bytes[k - pos]? = none), Nat.sub_add_eq, Option.or_none]

/-- The later bytes may be written first. -/
theorem Places.prepend (first : Places w (pos + bytes.length) more) (second : Places v pos bytes) :
    Places (w ++ v) pos (bytes ++ more) := by
  intro k
  rw [get_append, first k, second k]
  by_cases below : k < pos
  · rw [if_pos below, if_pos (show k < pos + bytes.length by omega), if_pos below]
    rfl
  · rw [if_neg below, if_neg below]
    by_cases inside : k - pos < bytes.length
    · rw [if_pos (by omega), List.getElem?_append_left inside, Option.or_none]
    · rw [if_neg (by omega), List.getElem?_append_right (by omega), (List.getElem?_eq_none (by omega) : bytes[k - pos]? = none),
        Nat.sub_add_eq]
      rfl

/-- The indices that are written are those of the bytes. -/
theorem Places.written_iff (places : Places w pos bytes) :
    (∃ b, (k, b) ∈ w) ↔ pos ≤ k ∧ k < pos + bytes.length := by
  have holds : (w.get k).isSome ↔ ∃ b, (k, b) ∈ w := by
    rw [Buffer.get, List.lookup_isSome_iff]
    simp
  rw [← holds, places k]
  by_cases below : k < pos
  · rw [if_pos below]
    exact iff_of_false (by simp) (by omega)
  · rw [if_neg below, ← Option.ne_none_iff_isSome, ne_eq, List.getElem?_eq_none_iff]
    omega

/-! ## `EncodeUTF8` -/

/-- The continuation bytes of a code point, `n` of them. -/
def tails : Nat → Nat → List UInt8
  | 0, _ => []
  | n + 1, c => tails n (c / 64) ++ [UInt8.ofNat (0x80 + c % 64)]

/-- The bytes of UTF-8. -/
def utf8Bytes (c : Nat) : List UInt8 :=
  if c ≤ 0x7f then [UInt8.ofNat c]
  else if c ≤ 0x7ff then UInt8.ofNat (0xC0 + c / 64) :: tails 1 c
  else if c ≤ 0xffff then UInt8.ofNat (0xE0 + c / 64 / 64) :: tails 2 c
  else UInt8.ofNat (0xF0 + c / 64 / 64 / 64) :: tails 3 c

@[simp] theorem length_tails (n c : Nat) : (tails n c).length = n := by
  induction n generalizing c with
  | zero => rfl
  | succ n ih => simp [tails, ih]

/-- The four forms. -/
theorem utf8Bytes_cases (c : Nat) :
    (c ≤ 0x7f ∧ utf8Length c = 1 ∧ utf8Bytes c = [UInt8.ofNat c]) ∨
      (0x7f < c ∧ c ≤ 0x7ff ∧ utf8Length c = 2 ∧ utf8Bytes c = UInt8.ofNat (0xC0 + c / 64) :: tails 1 c) ∨
      (0x7ff < c ∧ c ≤ 0xffff ∧ utf8Length c = 3 ∧ utf8Bytes c = UInt8.ofNat (0xE0 + c / 64 / 64) :: tails 2 c) ∨
      (0xffff < c ∧ utf8Length c = 4 ∧ utf8Bytes c = UInt8.ofNat (0xF0 + c / 64 / 64 / 64) :: tails 3 c) := by
  unfold utf8Length utf8OneMax utf8TwoMax utf8ThreeMax
  by_cases one : c ≤ 0x7f
  · exact .inl ⟨one, if_pos one, if_pos one⟩
  by_cases two : c ≤ 0x7ff
  · exact .inr (.inl ⟨by omega, two, by simp [one, two], by simp [utf8Bytes, one, two]⟩)
  by_cases three : c ≤ 0xffff
  · exact .inr (.inr (.inl ⟨by omega, three, by simp [one, two, three], by simp [utf8Bytes, one, two, three]⟩))
  · exact .inr (.inr (.inr ⟨by omega, by simp [one, two, three], by simp [utf8Bytes, one, two, three]⟩))

theorem length_utf8Bytes (c : Nat) : (utf8Bytes c).length = utf8Length c := by
  obtain ⟨-, length, bytes⟩ | ⟨-, -, length, bytes⟩ | ⟨-, -, length, bytes⟩ | ⟨-, length, bytes⟩ :=
    utf8Bytes_cases c <;> simp [length, bytes]

theorem utf8Length_pos (c : Nat) : 0 < utf8Length c := by
  have := utf8Bytes_cases c
  omega

/-- `(codepoint | byteMark) & byteMask` keeps six bits. -/
theorem cont_eq (c : Nat) : (c ||| byteMark) &&& byteMask = 0x80 + c % 64 := by
  have small : ∀ x : Fin 256, (x.val ||| 0x80) &&& 0xbf = 0x80 + x.val % 64 := by decide +kernel
  have low : ((c ||| 0x80) &&& 0xbf) % 2 ^ 8 = (c ||| 0x80) &&& 0xbf :=
    Nat.mod_eq_of_lt (Nat.lt_of_le_of_lt Nat.and_le_right (by omega))
  calc (c ||| 0x80) &&& 0xbf = ((c % 2 ^ 8 ||| 0x80) &&& 0xbf) := by
        rw [← low, Nat.and_mod_two_pow, Nat.or_mod_two_pow]
    _ = 0x80 + c % 2 ^ 8 % 64 := small ⟨c % 2 ^ 8, Nat.mod_lt _ (by omega)⟩
    _ = 0x80 + c % 64 := by omega

theorem encodeRest_spec (index n c : Nat) (out : Buffer) :
    ∃ w, encodeRest index n c out = (c / 64 ^ n, out ++ w) ∧ Places w (index + 1) (tails n c) := by
  induction n generalizing c out with
  | zero => exact ⟨[], by simp [encodeRest], places_nil _⟩
  | succ n ih =>
    obtain ⟨w, rest, places⟩ := ih (c / 64) (out ++ [(index + (n + 1), UInt8.ofNat (0x80 + c % 64))])
    refine ⟨(index + (n + 1), UInt8.ofNat (0x80 + c % 64)) :: w, ?_, ?_⟩
    · rw [encodeRest, cont_eq, Nat.shiftRight_eq_div_pow, show 2 ^ utf8Offset = 64 from rfl, rest,
        Nat.div_div_eq_div_mul, Nat.pow_succ', List.append_assoc]
      rfl
    · have last := places_single (index + (n + 1)) (UInt8.ofNat (0x80 + c % 64))
      rw [show index + (n + 1) = index + 1 + (tails n (c / 64)).length by rw [length_tails]; omega] at last ⊢
      exact last.prepend places

theorem mark_two : ∀ x : Fin 32, x.val ||| firstByteMark.getD 2 0 = 0xC0 + x.val := by decide

theorem mark_three : ∀ x : Fin 16, x.val ||| firstByteMark.getD 3 0 = 0xE0 + x.val := by decide

theorem mark_four : ∀ x : Fin 8, x.val ||| firstByteMark.getD 4 0 = 0xF0 + x.val := by decide

theorem utf8Bytes_eq (small : c < 2 ^ 21) :
    utf8Bytes c = UInt8.ofNat (c / 64 ^ (utf8Length c - 1) ||| firstByteMark.getD (utf8Length c) 0) ::
      tails (utf8Length c - 1) c := by
  obtain ⟨-, length, bytes⟩ | ⟨-, most, length, bytes⟩ | ⟨-, most, length, bytes⟩ | ⟨-, length, bytes⟩ :=
    utf8Bytes_cases c
  · rw [bytes, length]
    simp [tails, firstByteMark]
  · rw [bytes, length, Nat.pow_one, ← mark_two ⟨c / 64, by omega⟩]
  · rw [bytes, length, Nat.pow_two, ← Nat.div_div_eq_div_mul, ← mark_three ⟨c / 64 / 64, by omega⟩]
  · rw [bytes, length, Nat.pow_succ, Nat.pow_two, ← Nat.div_div_eq_div_mul, ← Nat.div_div_eq_div_mul,
      ← mark_four ⟨c / 64 / 64 / 64, by omega⟩]

/-- A code point is written whole if there is room for it, and not at all otherwise. -/
theorem encodeUTF8_of_fits {len index : Nat} (small : c < 2 ^ 21) (fits : index + (utf8Bytes c).length ≤ len)
    (out : Buffer) :
    ∃ w, encodeUTF8 c out len index = (out ++ w, (utf8Bytes c).length) ∧ Places w index (utf8Bytes c) := by
  obtain ⟨w, rest, places⟩ := encodeRest_spec index (utf8Length c - 1) c out
  rw [length_utf8Bytes] at fits
  refine ⟨w ++ [(index, UInt8.ofNat
    (c / 64 ^ (utf8Length c - 1) ||| firstByteMark.getD (utf8Length c) 0))], ?_, ?_⟩
  · rw [encodeUTF8, if_neg (by omega), rest, length_utf8Bytes, ← List.append_assoc]
  · rw [utf8Bytes_eq small]
    have first := places_single index (UInt8.ofNat
      (c / 64 ^ (utf8Length c - 1) ||| firstByteMark.getD (utf8Length c) 0))
    exact places.prepend first

theorem encodeUTF8_of_not_fits {len index : Nat} (full : len < index + (utf8Bytes c).length) (out : Buffer) :
    encodeUTF8 c out len index = (out, 0) := by
  rw [length_utf8Bytes] at full
  rw [encodeUTF8, if_pos full]

end Utf

end ArkRuntime
