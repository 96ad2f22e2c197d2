import Mathlib.Algebra.Order.Ring.Int

/-!
# Signed LEB128

A signed number as bytes of seven bits each, the lowest first; every byte but the last one has its high bit
set, and the bit below the high bit of the last byte is the sign. `Leb128` is an implementation of it for
64-bit numbers; a reader that starts at an encoded number gets the number and the count of its bytes, whatever
follows.
-/

namespace ArkRuntime

structure Leb128 where
  signedEncodingSize : Int → Nat
  encodeSigned : Int → List UInt8
  /-- The number at the start of the bytes, and the count of its bytes. -/
  decodeSigned : List UInt8 → Int × Nat

def IsInt64 (v : Int) : Prop := -2 ^ 63 ≤ v ∧ v < 2 ^ 63

namespace Leb128

structure Lawful (leb : Leb128) : Prop where
  size : ∀ v, IsInt64 v → leb.signedEncodingSize v = (leb.encodeSigned v).length
  decode : ∀ v rest, IsInt64 v →
    leb.decodeSigned (leb.encodeSigned v ++ rest) = (v, (leb.encodeSigned v).length)

/-- The minimal encoding; `n + 1` bytes are enough. -/
def encode : Nat → Int → List UInt8
  | 0, v => [(v % 128).toNat.toUInt8]
  | n + 1, v =>
      if (v / 128 = 0 ∧ v % 128 < 64) ∨ (v / 128 = -1 ∧ 64 ≤ v % 128) then [(v % 128).toNat.toUInt8]
      else ((v % 128).toNat + 128).toUInt8 :: encode n (v / 128)

def decode : List UInt8 → Int × Nat
  | [] => (0, 0)
  | b :: rest =>
      if b.toNat < 128 then (if b.toNat < 64 then b.toNat else (b.toNat : Int) - 128, 1)
      else
        let (v, size) := decode rest
        ((b.toNat : Int) - 128 + 128 * v, size + 1)

def standard : Leb128 where
  signedEncodingSize v := (encode 9 v).length
  encodeSigned := encode 9
  decodeSigned := decode

theorem toNat_toUInt8 {n : Nat} (fits : n < 256) : n.toUInt8.toNat = n := by
  rw [Nat.toUInt8_eq, UInt8.toNat_ofNat', Nat.mod_eq_of_lt fits]

/-- The last byte. -/
theorem decode_last {v : Int} (low : -64 ≤ v) (high : v < 64) (rest : List UInt8) :
    decode ([(v % 128).toNat.toUInt8] ++ rest) = (v, 1) := by
  have byte := toNat_toUInt8 (show (v % 128).toNat < 256 by omega)
  rw [List.singleton_append, decode, byte, if_pos (by omega)]
  by_cases small : (v % 128).toNat < 64
  · rw [if_pos small]
    congr 1
    omega
  · rw [if_neg small]
    congr 1
    omega

theorem decode_encode (n : Nat) (v : Int) (low : -64 * 128 ^ n ≤ v) (high : v < 64 * 128 ^ n)
    (rest : List UInt8) : decode (encode n v ++ rest) = (v, (encode n v).length) := by
  induction n generalizing v with
  | zero => exact decode_last (by simpa using low) (by simpa using high) rest
  | succ n ih =>
    rw [encode]
    by_cases last : (v / 128 = 0 ∧ v % 128 < 64) ∨ (v / 128 = -1 ∧ 64 ≤ v % 128)
    · rw [if_pos last]
      exact decode_last (by omega) (by omega) rest
    · rw [if_neg last]
      have byte := toNat_toUInt8 (show (v % 128).toNat + 128 < 256 by omega)
      have power : (128 : Int) ^ (n + 1) = 128 * 128 ^ n := by rw [Int.pow_succ, Int.mul_comm]
      have next := ih (v / 128) (by omega) (by omega)
      rw [List.cons_append, decode, byte, if_neg (by omega), next, List.length_cons]
      refine Prod.ext ?_ rfl
      simp only
      omega

theorem standard_lawful : standard.Lawful where
  size _ _ := rfl
  decode v rest int64 := by
    apply decode_encode 9 v _ _ rest
    · exact Int.le_trans (by decide) int64.1
    · exact Int.lt_of_lt_of_le int64.2 (by decide)

end Leb128

end ArkRuntime
