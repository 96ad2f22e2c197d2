import Mathlib.Algebra.Order.Ring.Int

/-!
# Bit fields

A word holds several numbers, each in the bits `start, ..., start + size - 1` of its own field. Writing one
field leaves the others as they are.
-/

namespace ArkRuntime

structure BitField where
  start : Nat
  size : Nat
deriving DecidableEq, Repr

namespace BitField

variable {w : Nat}

def get (f : BitField) (word : BitVec w) : Nat := (word.extractLsb' f.start f.size).toNat

def mask (f : BitField) (w : Nat) : BitVec w := (BitVec.allOnes f.size).setWidth w <<< f.start

def set (f : BitField) (value : Nat) (word : BitVec w) : BitVec w :=
  (word &&& ~~~f.mask w) ||| (BitVec.ofNat w value <<< f.start)

theorem get_lt (f : BitField) (word : BitVec w) : f.get word < 2 ^ f.size := BitVec.isLt _

theorem getLsbD_mask (f : BitField) (i : Nat) :
    (f.mask w).getLsbD i = (decide (i < w) && decide (f.start ≤ i) && decide (i < f.start + f.size)) := by
  rw [mask, BitVec.getLsbD_shiftLeft, BitVec.getLsbD_setWidth, BitVec.getLsbD_allOnes]
  by_cases inside : i < w
  · by_cases behind : f.start ≤ i
    · have less : i - f.start < w := by omega
      have same : i - f.start < f.size ↔ i < f.start + f.size := by omega
      simp [inside, behind, less, same]
    · simp [behind, Nat.lt_of_not_le behind]
  · simp [inside]

theorem getLsbD_set (f : BitField) {value : Nat} (fits : value < 2 ^ f.size) (word : BitVec w) {i : Nat}
    (inside : i < w) :
    (f.set value word).getLsbD i =
      if f.start ≤ i ∧ i < f.start + f.size then value.testBit (i - f.start) else word.getLsbD i := by
  rw [set, BitVec.getLsbD_or, BitVec.getLsbD_and, BitVec.getLsbD_not, getLsbD_mask,
    BitVec.getLsbD_shiftLeft, BitVec.getLsbD_ofNat]
  by_cases behind : f.start ≤ i
  · have less : i - f.start < w := by omega
    by_cases below : i < f.start + f.size
    · simp [inside, behind, below, less]
    · have zero : value.testBit (i - f.start) = false := by
        apply Nat.testBit_lt_two_pow
        exact Nat.lt_of_lt_of_le fits (Nat.pow_le_pow_right (by decide) (by omega))
      simp [inside, below, zero]
  · simp [inside, behind, Nat.lt_of_not_le behind]

@[simp] theorem get_set (f : BitField) {value : Nat} (fits : value < 2 ^ f.size)
    (width : f.start + f.size ≤ w) (word : BitVec w) : f.get (f.set value word) = value := by
  have same : (f.set value word).extractLsb' f.start f.size = BitVec.ofNat f.size value := by
    apply BitVec.eq_of_getLsbD_eq
    intro i below
    rw [BitVec.getLsbD_extractLsb', getLsbD_set f fits word (by omega), BitVec.getLsbD_ofNat,
      if_pos (by omega), Nat.add_sub_cancel_left]
  rw [get, same, BitVec.toNat_ofNat, Nat.mod_eq_of_lt fits]

end BitField

end ArkRuntime
