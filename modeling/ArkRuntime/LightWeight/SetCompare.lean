import ArkRuntime.LightWeight.SetAddAll
import ArkRuntime.Misc.Sorting

/-!
# `HasAll` and `Equal` of `LightWeightSet`

`HasAll` looks for the hashes of the other set among its own, one behind the other, and never at an
element. `Equal` compares its own elements with the hashes of the other set. What they return is given
for every two sets, and from it the sets for which that is the inclusion and the equality of the elements.
-/

namespace ArkRuntime

variable {α : Type}

/-- What `Equal` asks of two values. A reference is a double, a string or something else. -/
structure ValueOps (α : Type) where
  isDouble : α → Bool
  isString : α → Bool
  /-- `SameValueNumberic`, if one of the numbers is a double. -/
  sameDouble : JSTaggedValue α → JSTaggedValue α → Bool
  /-- `StringCompare`. -/
  stringCompare : JSTaggedValue α → JSTaggedValue α → Bool

namespace ValueOps

variable (kinds : ValueOps α)

/-- `IsNumber`. -/
def isNumber : JSTaggedValue α → Bool
  | .int _ => true
  | .ref a => kinds.isDouble a
  | _ => false

/-- `IsString`. -/
def isStringValue : JSTaggedValue α → Bool
  | .ref a => kinds.isString a
  | _ => false

/-- `SameValueNumberic`. -/
def sameValueNumberic (x y : JSTaggedValue α) : Bool :=
  match x, y with
  | .int i, .int j => i == j
  | _, _ => kinds.sameDouble x y

end ValueOps

/-- `SameValue` as an equivalence. -/
def SetOps.Lawful.setoid {ops : SetOps α} (lawful : ops.Lawful) : Setoid (JSTaggedValue α) :=
  ⟨fun x y => ops.sameValue x y = true, lawful.refl, lawful.symm _ _, lawful.trans _ _ _⟩

namespace JSAPILightWeightSet

/-- The inner loop of `HasAll`, `n` rounds from the index `j` on: where the hash is. -/
def findHash (ops : SetOps α) (hashes : Slots α) (destHashCode : UInt32) :
    Nat → Nat → Option (Option Nat)
  | 0, _ => some none
  | n + 1, j => do
      let hashCode := ops.getUint32 (← hashes[j]?)
      if destHashCode == hashCode then return some j else findHash ops hashes destHashCode n (j + 1)

/-- The outer loop of `HasAll`, `n` rounds from the index `i` on. -/
def hasAllFrom (ops : SetOps α) (hashes destHashes : Slots α) (size : Nat) :
    Nat → Nat → Nat → Bool → Option Bool
  | 0, _, _, result => some result
  | n + 1, i, relocate, _ => do
      let destHashCode := ops.getUint32 (← destHashes[i]?)
      match ← findHash ops hashes destHashCode (size - relocate) relocate with
      | none => return false
      | some j => hasAllFrom ops hashes destHashes size n (i + 1) (j + 1) true

/-- `HasAll`. -/
def hasAll (ops : SetOps α) (obj lightweightSet : JSAPILightWeightSet α) : Option Bool :=
  let size := obj.length
  let destSize := lightweightSet.length
  if destSize > size then some false
  else hasAllFrom ops obj.hashes lightweightSet.hashes size destSize 0 0 false

/-- The argument of `Equal`. -/
inductive EqualArgument (α : Type) where
  | lightWeightSet (set : JSAPILightWeightSet α)
  | jsArray (elements : Slots α)
  | other

/-- The loop of `Equal`, `n` rounds from the index `i` on. -/
def equalFrom (kinds : ValueOps α) (destHashes srcHashes : Slots α) : Nat → Nat → Bool → Option Bool
  | 0, _, result => some result
  | n + 1, i, result => do
      let compareValue ← destHashes[i]?
      let values ← srcHashes[i]?
      let result := if kinds.isNumber compareValue && kinds.isNumber values then
        kinds.sameValueNumberic compareValue values else result
      let result := if kinds.isStringValue compareValue && kinds.isStringValue values then
        kinds.stringCompare compareValue values else result
      if !result then return result else equalFrom kinds destHashes srcHashes n (i + 1) result

/-- The end of `Equal`, where `srcHashes` is known. -/
def equalArrays (kinds : ValueOps α) (destHashes : Slots α) (destSize : Nat) (srcHashes : Slots α)
    (srcSize : Nat) : Option Bool :=
  if srcSize ≠ destSize then some false else equalFrom kinds destHashes srcHashes destSize 0 false

/-- `Equal`. What it calls the hashes are the elements of `obj`. -/
def equal (kinds : ValueOps α) (obj : JSAPILightWeightSet α) (value : EqualArgument α) : Option Bool :=
  let destHashes := obj.values
  let destSize := obj.length
  match value with
  | .lightWeightSet src =>
      let srcSize := src.length
      if srcSize = 0 ∨ destSize = 0 then some false
      else equalArrays kinds destHashes destSize src.hashes srcSize
  | .jsArray elements =>
      let srcSize := elements.length
      if srcSize = 0 ∨ destSize = 0 then some false
      else equalArrays kinds destHashes destSize elements srcSize
  | .other => equalArrays kinds destHashes destSize obj.hashes 0

variable {ops : SetOps α} {kinds : ValueOps α} {a b : JSAPILightWeightSet α}

/-! ## `HasAll` -/

/-- The hashes of a set. -/
def hashList (ops : SetOps α) (obj : JSAPILightWeightSet α) : List UInt32 :=
  (obj.hashes.take obj.length).map ops.getUint32

theorem length_hashList (inside : Inside a) : (hashList ops a).length = a.length := by
  rw [hashList, List.length_map, List.length_take, Nat.min_eq_left inside.hashes]

theorem exists_hash (ops : SetOps α) (inside : Inside a) {i : Nat} (below : i < a.length) :
    ∃ slot, a.hashes[i]? = some slot ∧
      (hashList ops a).drop i = ops.getUint32 slot :: (hashList ops a).drop (i + 1) := by
  have bound := inside.hashes
  have place : i < (hashList ops a).length := by rwa [length_hashList inside]
  refine ⟨a.hashes[i], List.getElem?_eq_getElem (by omega), ?_⟩
  rw [List.drop_eq_getElem_cons place]
  simp only [hashList, List.getElem_map, List.getElem_take]

theorem findHash_spec (ops : SetOps α) (inside : Inside a) (hash : UInt32) (n j : Nat)
    (all : j + n = a.length) :
    (findHash ops a.hashes hash n j = some none ∧ hash ∉ (hashList ops a).drop j) ∨
      ∃ k front, findHash ops a.hashes hash n j = some (some k) ∧ k < a.length ∧ hash ∉ front ∧
        (hashList ops a).drop j = front ++ hash :: (hashList ops a).drop (k + 1) := by
  induction n generalizing j with
  | zero =>
    refine .inl ⟨rfl, ?_⟩
    rw [List.drop_eq_nil_of_le (by rw [length_hashList inside]; omega)]
    exact List.not_mem_nil
  | succ n ih =>
    obtain ⟨slot, read, next⟩ := exists_hash ops inside (show j < a.length by omega)
    rw [findHash, read, next]
    simp only [Option.bind_eq_bind, Option.bind_some]
    by_cases same : hash = ops.getUint32 slot
    · refine .inr ⟨j, [], ?_, by omega, List.not_mem_nil, ?_⟩
      · rw [if_pos (beq_iff_eq.mpr same)]
        rfl
      · rw [same, List.nil_append]
    · rw [if_neg (by simpa using same)]
      rcases ih (j + 1) (by omega) with ⟨run, absent⟩ | ⟨k, front, run, below, absent, parts⟩
      · exact .inl ⟨run, List.not_mem_cons_of_ne_of_not_mem same absent⟩
      · refine .inr ⟨k, _ :: front, run, below, List.not_mem_cons_of_ne_of_not_mem same absent, ?_⟩
        rw [parts, List.cons_append]

theorem hasAllFrom_spec (ops : SetOps α) (insideA : Inside a) (insideB : Inside b) (n i relocate : Nat)
    (result : Bool) (all : i + n = b.length) (bound : relocate ≤ a.length) :
    hasAllFrom ops a.hashes b.hashes a.length n i relocate result = some (if n = 0 then result
      else decide (((hashList ops b).drop i).Sublist ((hashList ops a).drop relocate))) := by
  induction n generalizing i relocate result with
  | zero => rfl
  | succ n ih =>
    obtain ⟨slot, read, next⟩ := exists_hash ops insideB (show i < b.length by omega)
    rw [hasAllFrom, read, if_neg (Nat.succ_ne_zero n), next]
    simp only [Option.bind_eq_bind, Option.bind_some]
    rcases findHash_spec ops insideA (ops.getUint32 slot) (a.length - relocate) relocate
      (Nat.add_sub_cancel' bound) with ⟨run, absent⟩ | ⟨k, front, run, below, absent, parts⟩
    · rw [run, decide_eq_false (not_sublist_of_absent absent)]
      rfl
    · rw [run, parts]
      simp only [Option.bind_some, cons_sublist_append_iff absent]
      rw [ih (i + 1) (k + 1) true (by omega) below]
      by_cases last : n = 0
      · have nothing : (hashList ops b).drop (i + 1) = [] :=
          List.drop_eq_nil_of_le (by rw [length_hashList insideB]; omega)
        rw [if_pos last, nothing, decide_eq_true (List.nil_sublist _)]
      · rw [if_neg last]

/-- `HasAll` decides whether the hashes are a subsequence, but for the empty set. -/
theorem hasAll_eq (insideA : Inside a) (insideB : Inside b) : hasAll ops a b =
    some (decide (b.length ≠ 0 ∧ (hashList ops b).Sublist (hashList ops a))) := by
  have sizes : (hashList ops b).Sublist (hashList ops a) → b.length ≤ a.length := by
    intro sub
    have le := sub.length_le
    rwa [length_hashList insideA, length_hashList insideB] at le
  rw [hasAll]
  by_cases more : b.length > a.length
  · rw [if_pos more, decide_eq_false fun ⟨_, sub⟩ => Nat.not_lt.mpr (sizes sub) more]
  · have run := hasAllFrom_spec ops insideA insideB b.length 0 0 false
      (Nat.zero_add _) (Nat.zero_le _)
    rw [if_neg more, run, List.drop_zero, List.drop_zero]
    by_cases empty : b.length = 0
    · rw [if_pos empty, decide_eq_false fun ⟨nonempty, _⟩ => nonempty empty]
    · rw [if_neg empty]
      simp only [ne_eq, empty, not_false_eq_true, true_and]

/-! ## Inclusion -/

/-- Every element of `b` is one of `a`. -/
def Includes (ops : SetOps α) (a b : JSAPILightWeightSet α) : Prop :=
  ∀ v ∈ b.elements, Contains ops a v

/-- No hash occurs in `b` more often than in `a`. -/
def IncludesHashes (ops : SetOps α) (a b : JSAPILightWeightSet α) : Prop :=
  ∀ hash, (b.elements.map ops.hash).count hash ≤ (a.elements.map ops.hash).count hash

theorem Ordered.hashList_eq (ordered : Ordered ops a) : hashList ops a = a.elements.map ops.hash := by
  rw [hashList, ordered.hashes, List.map_map]
  simp only [Function.comp_def, SetOps.getUint32_hashSlot]

theorem Ordered.hashes_sorted (ordered : Ordered ops a) : (a.elements.map ops.hash).Pairwise (· ≤ ·) :=
  List.pairwise_map.mpr ordered.sorted

/-- `HasAll` compares the numbers of elements with the same hash. -/
theorem hasAll_ordered (insideA : Inside a) (insideB : Inside b) (orderedA : Ordered ops a)
    (orderedB : Ordered ops b) :
    ∃ result, hasAll ops a b = some result ∧
      (result = true ↔ b.length ≠ 0 ∧ IncludesHashes ops a b) := by
  refine ⟨_, hasAll_eq insideA insideB, ?_⟩
  rw [decide_eq_true_iff, orderedA.hashList_eq, orderedB.hashList_eq,
    sublist_iff_count orderedB.hashes_sorted orderedA.hashes_sorted]
  exact Iff.rfl

/-- The elements of a set have different classes, so an inclusion of elements is one of hashes. -/
theorem Includes.hashes (lawful : ops.Lawful) (orderedB : Ordered ops b) (includes : Includes ops a b) :
    IncludesHashes ops a b := by
  let _ := lawful.setoid
  refine count_map_le lawful.hash ?_ includes
  exact orderedB.distinct.imp fun {x y} other (same : ops.sameValue x y = true) =>
    Bool.false_ne_true (other.symm.trans same)

/-- The elements of `a` that `b` has not. -/
def outside (ops : SetOps α) (a b : JSAPILightWeightSet α) : List (JSTaggedValue α) :=
  a.elements.filter fun v => !b.elements.any (ops.sameValue · v)

/-- The elements of `a` that `b` has. -/
def shared (ops : SetOps α) (a b : JSAPILightWeightSet α) : List (JSTaggedValue α) :=
  a.elements.filter fun v => b.elements.any (ops.sameValue · v)

/-- `b` has elements that `a` has not, but no more with any hash than `a` has with that hash besides those of
    `b`: each of them collides with one that only `a` has. -/
def Hidden (ops : SetOps α) (a b : JSAPILightWeightSet α) : Prop :=
  outside ops b a ≠ [] ∧
    ∀ hash, ((outside ops b a).map ops.hash).count hash ≤ ((outside ops a b).map ops.hash).count hash

theorem count_hash_eq (ops : SetOps α) (a b : JSAPILightWeightSet α) (hash : UInt32) :
    (a.elements.map ops.hash).count hash =
      ((shared ops a b).map ops.hash).count hash + ((outside ops a b).map ops.hash).count hash := by
  have parts := List.filter_append_perm (fun v => b.elements.any (ops.sameValue · v)) a.elements
  rw [← (parts.map ops.hash).count_eq hash, List.map_append, List.count_append]
  rfl

theorem count_shared_le (lawful : ops.Lawful) (orderedA : Ordered ops a) (hash : UInt32) :
    ((shared ops a b).map ops.hash).count hash ≤ ((shared ops b a).map ops.hash).count hash := by
  let _ := lawful.setoid
  refine count_map_le lawful.hash ?_ ?_ hash
  · exact (orderedA.distinct.filter _).imp fun {x y} other (same : ops.sameValue x y = true) =>
      Bool.false_ne_true (other.symm.trans same)
  · intro x mem
    obtain ⟨memA, there⟩ := List.mem_filter.mp mem
    obtain ⟨y, memB, same⟩ := List.any_eq_true.mp there
    have back : a.elements.any (ops.sameValue · y) = true :=
      List.any_eq_true.mpr ⟨x, memA, lawful.symm _ _ same⟩
    exact ⟨y, List.mem_filter.mpr ⟨memB, back⟩, same⟩

theorem includes_iff (ops : SetOps α) (a b : JSAPILightWeightSet α) : Includes ops a b ↔ outside ops b a = [] := by
  simp only [Includes, Contains, outside, List.filter_eq_nil_iff, Bool.not_eq_true', Bool.not_eq_false,
    List.any_eq_true]

/-- What both sets have counts alike, so the hashes are included exactly if those of the other elements are. -/
theorem hidden_iff (lawful : ops.Lawful) (orderedA : Ordered ops a) (orderedB : Ordered ops b) :
    Hidden ops a b ↔ ¬ Includes ops a b ∧ IncludesHashes ops a b := by
  rw [Hidden, includes_iff]
  refine and_congr_right fun _ => forall_congr' fun hash => ?_
  have same := Nat.le_antisymm (count_shared_le (b := b) lawful orderedA hash)
    (count_shared_le (b := a) lawful orderedB hash)
  rw [count_hash_eq ops a b, count_hash_eq ops b a, same]
  exact (Nat.add_le_add_iff_left).symm

/-! ## `Equal` -/

/-- The first element is a number. -/
def FirstIsNumber (kinds : ValueOps α) (a : JSAPILightWeightSet α) : Prop :=
  ∃ v, a.elements[0]? = some v ∧ kinds.isNumber v = true

/-- The number that a slot holds is the hash in the same slot of the other set. -/
def MatchesAt (ops : SetOps α) (kinds : ValueOps α) (a b : JSAPILightWeightSet α) (i : Nat) : Prop :=
  ∀ v w, a.elements[i]? = some v → b.elements[i]? = some w → kinds.isNumber v = true →
    kinds.sameValueNumberic v (SetOps.hashSlot (ops.hash w)) = true

theorem Ordered.exists_slot (ordered : Ordered ops a) (inside : Inside a) {i : Nat} (below : i < a.length) :
    ∃ v, a.elements[i]? = some v ∧ a.values[i]? = some v ∧
      a.hashes[i]? = some (SetOps.hashSlot (ops.hash v)) := by
  have bound := inside.values
  have place : i < a.values.length := by omega
  have read : a.values[i]? = some a.values[i] := List.getElem?_eq_getElem place
  have element : a.elements[i]? = some a.values[i] := by rw [elements, List.getElem?_take_of_lt below, read]
  have here := congrArg (fun l => l[i]?) ordered.hashes
  simp only [List.getElem?_map, element, Option.map_some, List.getElem?_take_of_lt below] at here
  exact ⟨_, element, read, here⟩

/-- One round of the loop: the slot of the other set holds a number. -/
theorem equalFrom_succ (kinds : ValueOps α) (n : Nat) {i : Nat} {v w : JSTaggedValue α} (result : Bool)
    (mine : a.values[i]? = some v) (other : b.hashes[i]? = some (SetOps.hashSlot (ops.hash w))) :
    equalFrom kinds a.values b.hashes (n + 1) i result =
      if (if kinds.isNumber v then kinds.sameValueNumberic v (SetOps.hashSlot (ops.hash w)) else result) then
        equalFrom kinds a.values b.hashes n (i + 1) true
      else some false := by
  have number : kinds.isNumber (SetOps.hashSlot (ops.hash w)) = true := rfl
  have string : kinds.isStringValue (SetOps.hashSlot (ops.hash w)) = false := rfl
  rw [equalFrom, mine, other]
  simp only [Option.bind_eq_bind, Option.bind_some, number, string, Bool.and_true, Bool.and_false,
    Bool.false_eq_true, if_false]
  cases (if kinds.isNumber v then kinds.sameValueNumberic v (SetOps.hashSlot (ops.hash w)) else result) <;> rfl

theorem matchesAt_iff {i : Nat} {v w : JSTaggedValue α} (mine : a.elements[i]? = some v)
    (other : b.elements[i]? = some w) : MatchesAt ops kinds a b i ↔ (if kinds.isNumber v then
      kinds.sameValueNumberic v (SetOps.hashSlot (ops.hash w)) else true) = true := by
  constructor
  · intro same
    by_cases number : kinds.isNumber v = true
    · rw [if_pos number]
      exact same v w mine other number
    · rw [if_neg number]
  · intro same v' w' mine' other' number
    obtain rfl := Option.some.inj (mine.symm.trans mine')
    obtain rfl := Option.some.inj (other.symm.trans other')
    rwa [if_pos number] at same

/-- The rounds after one whose numbers are the same. -/
theorem equalFrom_spec (kinds : ValueOps α) (insideA : Inside a) (insideB : Inside b)
    (orderedA : Ordered ops a) (orderedB : Ordered ops b) (sizes : a.length = b.length) (n i : Nat) (all : i + n = a.length) :
    ∃ result, equalFrom kinds a.values b.hashes n i true = some result ∧
      (result = true ↔ ∀ j, i ≤ j → MatchesAt ops kinds a b j) := by
  induction n generalizing i with
  | zero =>
    refine ⟨true, rfl, fun _ j behind v w here => ?_, fun _ => rfl⟩
    have below := (List.getElem?_eq_some_iff.mp here).1
    rw [length_elements insideA] at below
    omega
  | succ n ih =>
    obtain ⟨v, element, mine, -⟩ := orderedA.exists_slot insideA (show i < a.length by omega)
    obtain ⟨w, element', -, other⟩ := orderedB.exists_slot insideB (show i < b.length by omega)
    obtain ⟨result, run, iff⟩ := ih (i + 1) (by omega)
    rw [equalFrom_succ kinds n true mine other]
    by_cases same : MatchesAt ops kinds a b i
    · rw [if_pos ((matchesAt_iff element element').mp same)]
      refine ⟨result, run, iff.trans ⟨fun later j behind => ?_, fun all j behind => all j (by omega)⟩⟩
      rcases Nat.eq_or_lt_of_le behind with rfl | less
      · exact same
      · exact later j less
    · rw [if_neg fun eq => same ((matchesAt_iff element element').mpr eq)]
      exact ⟨false, rfl, fun no => absurd no Bool.false_ne_true,
        fun all => absurd (all i (Nat.le_refl i)) same⟩

/-- `Equal` compares elements with hashes, as long as they are numbers. -/
theorem equal_ordered (insideA : Inside a) (insideB : Inside b) (orderedA : Ordered ops a)
    (orderedB : Ordered ops b) :
    ∃ result, equal kinds a (.lightWeightSet b) = some result ∧
      (result = true ↔ a.length = b.length ∧ FirstIsNumber kinds a ∧ ∀ i, MatchesAt ops kinds a b i) := by
  have nonempty : FirstIsNumber kinds a → a.length ≠ 0 := by
    rintro ⟨v, here, -⟩ empty
    have below := (List.getElem?_eq_some_iff.mp here).1
    rw [length_elements insideA] at below
    omega
  unfold equal
  simp only
  by_cases empty : b.length = 0 ∨ a.length = 0
  · refine ⟨false, if_pos empty, fun no => absurd no Bool.false_ne_true, ?_⟩
    rintro ⟨sizes, first, -⟩
    exact absurd (nonempty first) (by omega)
  rw [if_neg empty, equalArrays]
  by_cases sizes : b.length = a.length
  · rw [if_neg (not_not.mpr sizes)]
    obtain ⟨v, element, mine, -⟩ := orderedA.exists_slot insideA (show 0 < a.length by omega)
    obtain ⟨w, element', -, other⟩ := orderedB.exists_slot insideB (show 0 < b.length by omega)
    obtain ⟨result, run, iff⟩ := equalFrom_spec kinds insideA insideB orderedA orderedB
      sizes.symm (a.length - 1) 1 (by omega)
    have round := equalFrom_succ kinds (a.length - 1) false mine other
    rw [show a.length - 1 + 1 = a.length by omega] at round
    rw [round]
    by_cases number : kinds.isNumber v = true
    · have first : FirstIsNumber kinds a := ⟨v, element, number⟩
      have here : MatchesAt ops kinds a b 0 ↔ _ := matchesAt_iff element element'
      rw [if_pos number] at here ⊢
      by_cases same : MatchesAt ops kinds a b 0
      · rw [if_pos (here.mp same)]
        refine ⟨result, run, iff.trans ⟨fun later => ⟨sizes.symm, first, fun i => ?_⟩,
          fun all j _ => all.2.2 j⟩⟩
        rcases Nat.eq_zero_or_pos i with rfl | positive
        · exact same
        · exact later i positive
      · rw [if_neg fun eq => same (here.mpr eq)]
        exact ⟨false, rfl, fun no => absurd no Bool.false_ne_true, fun all => absurd (all.2.2 0) same⟩
    · rw [if_neg number, if_neg Bool.false_ne_true]
      refine ⟨false, rfl, fun no => absurd no Bool.false_ne_true, ?_⟩
      rintro ⟨-, ⟨v', element2, number'⟩, -⟩
      obtain rfl := Option.some.inj (element.symm.trans element2)
      exact absurd number' number
  · refine ⟨false, if_pos sizes, fun no => absurd no Bool.false_ne_true, ?_⟩
    rintro ⟨same, -⟩
    exact absurd same.symm sizes

/-! ## What the results mean -/

def SameElements (ops : SetOps α) (a b : JSAPILightWeightSet α) : Prop :=
  Includes ops a b ∧ Includes ops b a

theorem SameElements.hashes (lawful : ops.Lawful) (orderedA : Ordered ops a) (orderedB : Ordered ops b)
    (same : SameElements ops a b) : a.elements.map ops.hash = b.elements.map ops.hash := by
  have perm : (a.elements.map ops.hash).Perm (b.elements.map ops.hash) :=
    List.perm_iff_count.mpr fun hash =>
      Nat.le_antisymm (same.2.hashes lawful orderedA hash) (same.1.hashes lawful orderedB hash)
  exact perm.eq_of_pairwise' orderedA.hashes_sorted orderedB.hashes_sorted

/-- The numbers of the set are their own hashes. -/
def OwnHashes (ops : SetOps α) (kinds : ValueOps α) (a : JSAPILightWeightSet α) : Prop :=
  ∀ v ∈ a.elements, kinds.isNumber v = true →
    kinds.sameValueNumberic v (SetOps.hashSlot (ops.hash v)) = true

/-- In sets with the same elements the numbers are compared with their own hashes. -/
theorem SameElements.matches_iff (lawful : ops.Lawful) (orderedA : Ordered ops a)
    (orderedB : Ordered ops b) (same : SameElements ops a b) :
    (∀ i, MatchesAt ops kinds a b i) ↔ OwnHashes ops kinds a := by
  have hashes := same.hashes lawful orderedA orderedB
  have sizes : a.elements.length = b.elements.length := by
    have size := congrArg List.length hashes
    rwa [List.length_map, List.length_map] at size
  have sameHash : ∀ (i : Nat) (v w : JSTaggedValue α), a.elements[i]? = some v →
      b.elements[i]? = some w → ops.hash v = ops.hash w := by
    intro i v w mine other
    have here := congrArg (fun l => l[i]?) hashes
    simp only [List.getElem?_map, mine, other, Option.map_some, Option.some.injEq] at here
    exact here
  constructor
  · intro all v mem number
    obtain ⟨i, mine⟩ := List.getElem?_of_mem mem
    have below := (List.getElem?_eq_some_iff.mp mine).1
    have other := List.getElem?_eq_getElem (sizes ▸ below)
    rw [sameHash i v _ mine other]
    exact all i v _ mine other number
  · intro own i v w mine other number
    rw [← sameHash i v w mine other]
    exact own v (List.mem_of_getElem? mine) number

/-- A flag means `P` if what it does mean is equivalent. -/
theorem means_iff {flag : Option Bool} {P Q : Prop}
    (run : ∃ result, flag = some result ∧ (result = true ↔ Q)) :
    (∃ result, flag = some result ∧ (result = true ↔ P)) ↔ (Q ↔ P) := by
  obtain ⟨result, returned, means⟩ := run
  constructor
  · rintro ⟨result', returned', means'⟩
    obtain rfl := Option.some.inj (returned.symm.trans returned')
    exact means.symm.trans means'
  · intro same
    exact ⟨result, returned, means.trans same⟩

/-- The same elements, but `a` does not begin with a number, or holds one that is not its own hash. -/
structure Overlooked (ops : SetOps α) (kinds : ValueOps α) (a b : JSAPILightWeightSet α) : Prop where
  inA : outside ops b a = []
  inB : outside ops a b = []
  numbers : FirstIsNumber kinds a → ∃ v ∈ a.elements, kinds.isNumber v = true ∧
    kinds.sameValueNumberic v (SetOps.hashSlot (ops.hash v)) = false

/-- As many elements, of which `b` has not all of `a`, but `a` begins with a number, and all its numbers are the
    hashes in the same places of `b`. -/
structure Confused (ops : SetOps α) (kinds : ValueOps α) (a b : JSAPILightWeightSet α) : Prop where
  sizes : a.length = b.length
  missing : outside ops a b ≠ []
  first : FirstIsNumber kinds a
  numbers : ∀ i, MatchesAt ops kinds a b i

/-- Of two sets of the same size, one that has all elements of the other has the same elements. -/
theorem Includes.sameElements (lawful : ops.Lawful) (insideA : Inside a) (insideB : Inside b) (orderedA : Ordered ops a)
    (sizes : a.length = b.length) (includes : Includes ops b a) : SameElements ops a b := by
  let _ := lawful.setoid
  refine ⟨fun v mem => ?_, includes⟩
  have among : ∀ x ∈ a.elements, ∃ y ∈ b.elements, y ≈ x := includes
  have different : a.elements.Pairwise fun x y => ¬ x ≈ y :=
    orderedA.distinct.imp fun {x y} other (same : ops.sameValue x y = true) => Bool.false_ne_true (other.symm.trans same)
  obtain ⟨x, memX, same⟩ := exists_of_length_le different among
    (by rw [length_elements insideA, length_elements insideB, sizes]) v mem
  exact ⟨x, memX, same⟩

theorem overlooked_iff (lawful : ops.Lawful) (orderedA : Ordered ops a) (orderedB : Ordered ops b) :
    Overlooked ops kinds a b ↔
      SameElements ops a b ∧ ¬ (FirstIsNumber kinds a ∧ ∀ i, MatchesAt ops kinds a b i) := by
  constructor
  · rintro ⟨inA, inB, numbers⟩
    have same : SameElements ops a b := ⟨(includes_iff ops a b).mpr inA, (includes_iff ops b a).mpr inB⟩
    refine ⟨same, fun both => ?_⟩
    obtain ⟨v, mem, number, differs⟩ := numbers both.1
    have own := (same.matches_iff lawful orderedA orderedB).mp both.2 v mem number
    exact Bool.false_ne_true (differs.symm.trans own)
  · rintro ⟨same, no⟩
    refine ⟨(includes_iff ops a b).mp same.1, (includes_iff ops b a).mp same.2, fun first => ?_⟩
    by_contra none
    refine no ⟨first, (same.matches_iff lawful orderedA orderedB).mpr fun v mem number => ?_⟩
    by_contra differs
    exact none ⟨v, mem, number, Bool.not_eq_true _ ▸ differs⟩

/-- When `HasAll` is the inclusion and `Equal` the equality of two sets. -/
theorem hasAll_equal_iff (ops : SetOps α) (kinds : ValueOps α) (lawful : ops.Lawful) (insideA : Inside a)
    (insideB : Inside b) (orderedA : Ordered ops a) (orderedB : Ordered ops b) :
    ((∃ result, hasAll ops a b = some result ∧ (result = true ↔ Includes ops a b)) ↔
      b.length ≠ 0 ∧ ¬ Hidden ops a b) ∧
    ((∃ result, equal kinds a (.lightWeightSet b) = some result ∧
        (result = true ↔ SameElements ops a b)) ↔
      ¬ Overlooked ops kinds a b ∧ ¬ Confused ops kinds a b) := by
  constructor
  · rw [means_iff (hasAll_ordered insideA insideB orderedA orderedB), hidden_iff lawful orderedA orderedB]
    constructor
    · intro means
      refine ⟨fun empty => ?_, fun ⟨excludes, hashes⟩ => ?_⟩
      · have nothing : b.elements = [] :=
          List.eq_nil_of_length_eq_zero ((length_elements insideB).trans empty)
        have includes : Includes ops a b := fun v mem => absurd (nothing ▸ mem) List.not_mem_nil
        exact (means.mpr includes).1 empty
      · refine excludes (means.mp ⟨fun empty => excludes fun v mem => ?_, hashes⟩)
        have nothing : b.elements = [] :=
          List.eq_nil_of_length_eq_zero ((length_elements insideB).trans empty)
        exact absurd (nothing ▸ mem) List.not_mem_nil
    · rintro ⟨nonempty, seen⟩
      refine ⟨fun both => ?_, fun includes => ⟨nonempty, includes.hashes lawful orderedB⟩⟩
      by_contra excludes
      exact seen ⟨excludes, both.2⟩
  · rw [means_iff (equal_ordered insideA insideB orderedA orderedB), overlooked_iff lawful orderedA orderedB]
    have sizes (same : SameElements ops a b) : a.length = b.length := by
      have size := congrArg List.length (same.hashes lawful orderedA orderedB)
      rwa [List.length_map, List.length_map, length_elements insideA, length_elements insideB] at size
    constructor
    · intro means
      refine ⟨fun overlooked => overlooked.2 (means.mpr overlooked.1).2, fun confused => confused.missing ?_⟩
      have same := means.mp ⟨confused.sizes, confused.first, confused.numbers⟩
      exact (includes_iff ops b a).mp same.2
    · rintro ⟨seen, apart⟩
      constructor
      · rintro ⟨size, first, numbers⟩
        by_contra other
        refine apart ⟨size, fun all => other ?_, first, numbers⟩
        exact Includes.sameElements lawful insideA insideB orderedA size ((includes_iff ops b a).mpr all)
      · intro same
        by_contra no
        exact seen ⟨same, fun both => no ⟨sizes same, both⟩⟩

/-- No double, and the reference is a string. -/
def unitKinds : ValueOps Unit where
  isDouble _ := false
  isString _ := true
  sameDouble _ _ := false
  stringCompare _ _ := true

/-- The set of two numbers. -/
def pair (first second : Int) : JSAPILightWeightSet Unit :=
  ⟨.int first :: .int second :: Slots.newTaggedArray 6, .int first :: .int second :: Slots.newTaggedArray 6, 2⟩

/-- The numbers 5 and 9 are those of the same set, and not 5 and 8. -/
theorem hasAll_equal_iff_fiveAndNine :
    ((∃ result, hasAll unitOps (pair 5 9) (pair 5 9) = some result ∧
        (result = true ↔ Includes unitOps (pair 5 9) (pair 5 9))) ∧
      ∃ result, equal unitKinds (pair 5 9) (.lightWeightSet (pair 5 9)) = some result ∧
        (result = true ↔ SameElements unitOps (pair 5 9) (pair 5 9))) ∧
    (∃ result, hasAll unitOps (pair 5 9) (pair 5 8) = some result ∧
        (result = true ↔ Includes unitOps (pair 5 9) (pair 5 8))) ∧
      ∃ result, equal unitKinds (pair 5 9) (.lightWeightSet (pair 5 8)) = some result ∧
        (result = true ↔ SameElements unitOps (pair 5 9) (pair 5 8)) := by
  have inside (i j : Int) : Inside (pair i j) := ⟨show 2 ≤ 8 by decide, show 2 ≤ 8 by decide⟩
  have nine : Ordered unitOps (pair 5 9) := ⟨by decide +kernel, by decide +kernel, by decide +kernel⟩
  have eight : Ordered unitOps (pair 5 8) := ⟨by decide +kernel, by decide +kernel, by decide +kernel⟩
  have none : outside unitOps (pair 5 9) (pair 5 9) = [] := by decide +kernel
  have one : outside unitOps (pair 5 8) (pair 5 9) = [.int 8] := by decide +kernel
  have other : outside unitOps (pair 5 9) (pair 5 8) = [.int 9] := by decide +kernel
  obtain ⟨hasAllSame, equalSame⟩ :=
    hasAll_equal_iff unitOps unitKinds lawful_unitOps (inside 5 9) (inside 5 9) nine nine
  obtain ⟨hasAllOther, equalOther⟩ :=
    hasAll_equal_iff unitOps unitKinds lawful_unitOps (inside 5 9) (inside 5 8) nine eight
  refine ⟨⟨hasAllSame.mpr ⟨by decide, fun hidden => hidden.1 none⟩,
      equalSame.mpr ⟨fun overlooked => ?_, fun confused => confused.missing none⟩⟩,
    hasAllOther.mpr ⟨by decide, fun hidden => ?_⟩, equalOther.mpr ⟨fun overlooked => ?_, fun confused => ?_⟩⟩
  · have own : ∀ v ∈ (pair 5 9).elements, unitKinds.isNumber v = true →
        unitKinds.sameValueNumberic v (SetOps.hashSlot (unitOps.hash v)) = true := by decide +kernel
    obtain ⟨v, mem, number, differs⟩ := overlooked.numbers ⟨.int 5, rfl, rfl⟩
    exact Bool.false_ne_true (differs.symm.trans (own v mem number))
  · have more := hidden.2 8
    rw [one, other] at more
    exact absurd more (by decide +kernel)
  · rw [Overlooked.inA overlooked] at one
    cases one
  · exact absurd (confused.numbers 1 (.int 9) (.int 8) rfl rfl rfl) (by decide +kernel)

/-- Nothing is in every set, the hash 5 is not the element 5, and a string is not its hash. -/
theorem hasAll_equal_fails :
    (hasAll unitOps oneElement construct = some false ∧ Includes unitOps oneElement construct) ∧
    (∃ five, run (step unitOps) construct [.add (.int 5)] = some five ∧
      hasAll unitOps oneElement five = some true ∧ ¬ Includes unitOps oneElement five) ∧
    (equal unitKinds oneElement (.lightWeightSet oneElement) = some false ∧
      SameElements unitOps oneElement oneElement) := by
  have includes : Includes unitOps oneElement oneElement :=
    fun v mem => contains_of_mem lawful_unitOps mem
  have excludes : ¬ ∃ e ∈ oneElement.elements, unitOps.sameValue e (.int 5) = true := by decide
  refine ⟨⟨by decide +kernel, fun v mem => absurd mem List.not_mem_nil⟩, ?_, by decide +kernel, includes,
    includes⟩
  refine ⟨⟨.int 5 :: Slots.newTaggedArray 7, .int 5 :: Slots.newTaggedArray 7, 1⟩, rfl, by decide +kernel, ?_⟩
  exact fun all => excludes (all (.int 5) List.mem_cons_self)

end JSAPILightWeightSet

end ArkRuntime
