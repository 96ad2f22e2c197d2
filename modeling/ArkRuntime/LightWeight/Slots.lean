import ArkRuntime.TaggedArray
import ArkRuntime.Misc.SlotArray

/-!
# Arrays of the containers with parallel arrays

`LightWeightSet`, `LightWeightMap` and `PlainArray` keep their elements in the first slots of two or
three tagged arrays that are longer than the container. What they do to these arrays
(`ecmascript/tagged_array-inl.h`, `ecmascript/object_factory.cpp`) is given here with a check of every
access: a function is `none` where the source would read or write outside an array.
-/

namespace ArkRuntime

variable {α : Type}

/-- A `TaggedArray`, by its slots. -/
abbrev Slots (α : Type) := List (JSTaggedValue α)

namespace Slots

/-- `ObjectFactory::NewTaggedArray`. -/
def newTaggedArray (length : Nat) : Slots α := List.replicate length .hole

/-- `ObjectFactory::ExtendArray`; the source asserts that the new array is not shorter. -/
def extendArray (old : Slots α) (length : Nat) : Option (Slots α) :=
  if old.length ≤ length then some (old ++ List.replicate (length - old.length) .hole) else none

/-- `ObjectFactory::CopyArray`. -/
def copyArray (old : Slots α) (oldLength newLength : Nat) : Option (Slots α) :=
  if newLength = 0 then some []
  else if oldLength < newLength then extendArray old newLength
  else if newLength ≤ old.length then some (old.take newLength)
  else none

/-- `ObjectFactory::NewAndCopyTaggedArray`. -/
def newAndCopyTaggedArray (src : Slots α) (newLength oldLength : Nat) : Option (Slots α) :=
  if oldLength ≤ src.length ∧ oldLength ≤ newLength then
    some (src.take oldLength ++ List.replicate (newLength - oldLength) .hole)
  else none

/-- `TaggedArray::RemoveElementByIndex`, with or without a write barrier. -/
def removeElementByIndex (src : Slots α) (index effectiveLength : Nat) : Option (Slots α) := do
  let src ← copyDown (effectiveLength - 1 - index) (index + 1) index src
  store src (effectiveLength - 1) .hole

/-- `TaggedArray::InsertElementByIndex`. -/
def insertElementByIndex (src : Slots α) (value : JSTaggedValue α) (index effectiveLength : Nat) :
    Option (Slots α) := do
  let rounds := if index ≤ effectiveLength then effectiveLength - index else effectiveLength
  let src ← shiftUp rounds (effectiveLength - 1) src
  store src index value

variable {a : Slots α}

theorem copyArray_longer {oldLength newLength : Nat} (more : oldLength < newLength)
    (fits : a.length ≤ newLength) :
    ∃ a', copyArray a oldLength newLength = some a' ∧ a'.length = newLength ∧
      ∀ n ≤ a.length, a'.take n = a.take n := by
  refine ⟨a ++ List.replicate (newLength - a.length) .hole, ?_, ?_, fun n le => ?_⟩
  · rw [copyArray, if_neg (by omega), if_pos more, extendArray, if_pos fits]
  · rw [List.length_append, List.length_replicate]
    omega
  · rw [List.take_append_of_le_length le]

/-- The slots in use after the slots behind `p` moved up and `p` was written. -/
theorem shiftUp_insert {p n : Nat} (place : p ≤ n) (inside : n < a.length) :
    ∃ a', shiftUp (n - p) (n - 1) a = some a' ∧ a'.length = a.length ∧
      ∀ x, (a'.set p x).take (n + 1) = (a.take n).insertIdx p x := by
  rcases Nat.eq_zero_or_pos n with rfl | some
  · obtain rfl : p = 0 := by omega
    refine ⟨a, rfl, rfl, fun x => ?_⟩
    exact take_set_of_shifted (Nat.le_refl 0) inside rfl (fun j => by rw [if_neg (by omega)]) x
  · obtain ⟨a', run, length, slots⟩ := shiftUp_spec (n - p) (n - 1) a (by omega) (by omega)
    refine ⟨a', run, length, fun x => take_set_of_shifted place inside length (fun j => ?_) x⟩
    rw [slots j, show n - 1 + 1 - (n - p) = p by omega, Nat.sub_add_cancel some]

theorem insertElementByIndex_spec {p n : Nat} (x : JSTaggedValue α) (place : p ≤ n)
    (inside : n < a.length) :
    ∃ a', insertElementByIndex a x p n = some a' ∧ a'.length = a.length ∧
      a'.take (n + 1) = (a.take n).insertIdx p x := by
  obtain ⟨a', run, length, slots⟩ := shiftUp_insert place inside
  refine ⟨a'.set p x, ?_, by rw [List.length_set, length], slots x⟩
  simp only [insertElementByIndex, place, if_true]
  rw [run]
  exact store_of_lt (by omega) x

theorem removeElementByIndex_spec {p n : Nat} (place : p < n) (inside : n ≤ a.length) :
    ∃ a', removeElementByIndex a p n = some a' ∧ a'.length = a.length ∧
      a'.take (n - 1) = (a.take n).eraseIdx p := by
  obtain ⟨a', run, length, slots⟩ := copyDown_spec (n - 1 - p) (p + 1) p a (by omega) (by omega)
  refine ⟨a'.set (n - 1) .hole, ?_, by rw [List.length_set, length], ?_⟩
  · simp only [removeElementByIndex]
    rw [run]
    exact store_of_lt (by omega) _
  · refine take_of_moved_down place fun j below => ?_
    rw [List.getElem?_set_ne (by omega), slots j]
    by_cases behind : p ≤ j
    · rw [if_pos (by omega), if_pos behind, show j - p + (p + 1) = j + 1 by omega]
    · rw [if_neg (by omega), if_neg behind]

end Slots

end ArkRuntime
