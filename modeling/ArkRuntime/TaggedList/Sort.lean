import ArkRuntime.KeyHash.Model
import ArkRuntime.Misc.InsertionSort
import ArkRuntime.TaggedList.SingleList

/-!
# The order after `Sort`

`TaggedSingleList::Sort` inserts the value of one node after the other among the values before it, at the
place that a binary search with `SortCompare` finds. With a callback that compares by a total preorder it is
a stable sort: undefined comes after all other values, which are in the order of the callback.
-/

namespace ArkRuntime

open TaggedList

variable {α : Type}

/-! ## `SortCompare` -/

/-- `SortCompare` with a callback. What the callback returns is taken after `ToNumber`. -/
def sortCompare (callbackFn : JSTaggedValue α → JSTaggedValue α → Completion JSNumber)
    (valueX valueY : JSTaggedValue α) : Completion JSNumber :=
  if valueX.isHole then .normal (if valueY.isHole then .int 0 else .int 1)
  else if valueY.isHole then .normal (.int (-1))
  else if valueX.isUndefined then .normal (if valueY.isUndefined then .int 0 else .int 1)
  else if valueY.isUndefined then .normal (.int (-1))
  else match callbackFn valueX valueY with
    | .abrupt => .abrupt
    | .normal value => .normal (if KeyHash.isNaN value.getNumber then .int 0 else value)

/-- `compareResult > 0`. -/
def JSNumber.isPositive (compareResult : JSNumber) : Bool :=
  let num := compareResult.getNumber
  !KeyHash.isNaN num && !KeyHash.signbit num && !KeyHash.isZeroDouble num

/-- The comparison of `Sort`. -/
def comparesGreater (callbackFn : JSTaggedValue α → JSTaggedValue α → Completion JSNumber)
    (middleValue presentValue : JSTaggedValue α) : Completion Bool :=
  match sortCompare callbackFn middleValue presentValue with
  | .abrupt => .abrupt
  | .normal compareResult => .normal compareResult.isPositive

/-- The callback orders the values with `on` by `le`, and does not throw. -/
structure Compares (on : JSTaggedValue α → Prop)
    (callbackFn : JSTaggedValue α → JSTaggedValue α → Completion JSNumber)
    (le : JSTaggedValue α → JSTaggedValue α → Prop) : Prop where
  total : ∀ x y, on x → on y → le x y ∨ le y x
  trans : ∀ x y z, on x → on y → on z → le x y → le y z → le x z
  result : ∀ x y, on x → on y →
    ∃ value, callbackFn x y = .normal value ∧ (value.isPositive = true ↔ ¬ le x y)

/-- The values that a callback is given. -/
def JSTaggedValue.isGiven (v : JSTaggedValue α) : Prop := v ≠ .hole ∧ v ≠ .undefined

/-- Undefined comes after the values that the callback compares, and the Hole last. -/
def JSTaggedValue.sortRank : JSTaggedValue α → Nat
  | .hole => 2
  | .undefined => 1
  | _ => 0

/-- The order of the callback, with undefined at the end. -/
def UndefinedLast (le : JSTaggedValue α → JSTaggedValue α → Prop) (x y : JSTaggedValue α) : Prop :=
  x.sortRank < y.sortRank ∨ (x.sortRank = y.sortRank ∧ (x.sortRank = 0 → le x y))

section Order

variable {callbackFn : JSTaggedValue α → JSTaggedValue α → Completion JSNumber}
  {le : JSTaggedValue α → JSTaggedValue α → Prop}

theorem isGiven_iff (v : JSTaggedValue α) : v.isGiven ↔ v.sortRank = 0 := by
  cases v <;> simp [JSTaggedValue.isGiven, JSTaggedValue.sortRank]

theorem Compares.totalPreorder (compares : Compares JSTaggedValue.isGiven callbackFn le) :
    TotalPreorder (UndefinedLast le) := by
  constructor
  · intro x y
    rcases Nat.lt_trichotomy x.sortRank y.sortRank with less | same | greater
    · exact .inl (.inl less)
    · by_cases given : x.sortRank = 0
      · have order := compares.total x y ((isGiven_iff x).mpr given) ((isGiven_iff y).mpr (same ▸ given))
        exact order.imp (fun le => .inr ⟨same, fun _ => le⟩) fun le => .inr ⟨same.symm, fun _ => le⟩
      · exact .inl (.inr ⟨same, fun zero => absurd zero given⟩)
    · exact .inr (.inl greater)
  · intro x y z first second
    rcases first with less | ⟨same, first⟩
    · rcases second with less' | ⟨same', -⟩
      · exact .inl (Nat.lt_trans less less')
      · exact .inl (same' ▸ less)
    · rcases second with less' | ⟨same', second⟩
      · exact .inl (same ▸ less')
      · refine .inr ⟨same.trans same', fun zero => ?_⟩
        have given : y.sortRank = 0 := same ▸ zero
        exact compares.trans x y z ((isGiven_iff x).mpr zero) ((isGiven_iff y).mpr given)
          ((isGiven_iff z).mpr (same' ▸ given)) (first zero) (second given)

/-- What `SortCompare` does with the values that the callback is not given. -/
theorem sortCompare_ranks (callbackFn : JSTaggedValue α → JSTaggedValue α → Completion JSNumber)
    {x y : JSTaggedValue α} (notGiven : x.sortRank ≠ 0 ∨ y.sortRank ≠ 0) :
    sortCompare callbackFn x y = .normal (if x.sortRank < y.sortRank then .int (-1)
      else if x.sortRank = y.sortRank then .int 0 else .int 1) := by
  cases x <;> cases y <;> first | rfl | simp [JSTaggedValue.sortRank] at notGiven

/-- What `SortCompare` does with the others, if the callback returns. -/
theorem sortCompare_given {callbackFn : JSTaggedValue α → JSTaggedValue α → Completion JSNumber}
    {x y : JSTaggedValue α} {value : JSNumber} (givenX : x.sortRank = 0) (givenY : y.sortRank = 0)
    (returned : callbackFn x y = .normal value) : sortCompare callbackFn x y =
      .normal (if KeyHash.isNaN value.getNumber then .int 0 else value) := by
  have plain : ∀ v : JSTaggedValue α, v.sortRank = 0 → v.isHole = false ∧ v.isUndefined = false := by
    intro v given
    cases v <;> first | exact ⟨rfl, rfl⟩ | exact absurd given (Nat.succ_ne_zero _)
  simp only [sortCompare, plain x givenX, plain y givenY, returned, Bool.false_eq_true, if_false]

theorem isPositive_int : (JSNumber.int (-1)).isPositive = false ∧ (JSNumber.int 0).isPositive = false ∧
    (JSNumber.int 1).isPositive = true := by
  decide

/-- `SortCompare` is positive for the values that are not in order. -/
theorem Compares.greater (compares : Compares JSTaggedValue.isGiven callbackFn le)
    (x y : JSTaggedValue α) : ∃ positive, comparesGreater callbackFn x y = .normal positive ∧
      (positive = true ↔ ¬ UndefinedLast le x y) := by
  obtain ⟨below, same, above⟩ := isPositive_int
  by_cases given : x.sortRank = 0 ∧ y.sortRank = 0
  · obtain ⟨value, returned, positive⟩ :=
      compares.result x y ((isGiven_iff x).mpr given.1) ((isGiven_iff y).mpr given.2)
    have order : UndefinedLast le x y ↔ le x y := by
      simp [UndefinedLast, given]
    refine ⟨value.isPositive, ?_, positive.trans (not_congr order.symm)⟩
    rw [comparesGreater, sortCompare_given given.1 given.2 returned]
    cases number : KeyHash.isNaN value.getNumber with
    | true =>
      have notPositive : value.isPositive = false := by simp [JSNumber.isPositive, number]
      rw [notPositive]
      exact congrArg Completion.normal same
    | false => rfl
  · rw [not_and_or] at given
    rw [comparesGreater, sortCompare_ranks callbackFn given]
    refine ⟨_, rfl, ?_⟩
    rcases Nat.lt_trichotomy x.sortRank y.sortRank with less | equal | greater
    · rw [if_pos less, below]
      simp [UndefinedLast, less]
    · have other : x.sortRank ≠ 0 := given.elim id fun zero => equal ▸ zero
      rw [if_neg (by omega), if_pos equal, same]
      simp [UndefinedLast, equal, equal ▸ other]
    · rw [if_neg (by omega), if_neg (by omega), above]
      have no : ¬ UndefinedLast le x y := by
        rintro (less | ⟨equal, -⟩)
        · exact Nat.lt_asymm less greater
        · exact Nat.ne_of_gt greater equal
      simp [no]

end Order

/-! ## The rounds -/

namespace TaggedSingleList

section Rounds

variable {l : TaggedSingleList α} {es : List Nat} {v x : JSTaggedValue α} {m i endIndex : Nat}
  {cmp : JSTaggedValue α → JSTaggedValue α → Completion Bool}
  {le : JSTaggedValue α → JSTaggedValue α → Prop} {old : List (JSTaggedValue α)}

/-- A value by the number of its node. -/
theorem getElement_map (read : (l.values es)[m]? = some x) :
    l.getElement ((es.map (dataIndex .single)).getD m 0) = x := by
  obtain ⟨below, rfl⟩ := List.getElem?_eq_some_iff.mp read
  have inside : m < es.length := by simpa using below
  rw [List.getD_eq_getElem _ _ (by simpa using inside), List.getElem_map, getElement_dataIndex]
  simp only [values, List.getElem_map]

theorem values_setElement (enc : Encodes l es) (below : m < es.length) (v : JSTaggedValue α) :
    Encodes (l.setElement ((es.map (dataIndex .single)).getD m 0) v) es ∧
      (l.setElement ((es.map (dataIndex .single)).getD m 0) v).values es = (l.values es).set m v := by
  have place : (es.map (dataIndex .single)).getD m 0 = dataIndex .single (ringNode 0 es (m + 1)) := by
    rw [List.getD_eq_getElem _ _ (by simpa using below), List.getElem_map, ringNode_succ below]
  rw [place]
  exact setData_spec enc below v

/-- The binary search finds the place behind the values that are at most `v`. -/
theorem sortSearch_spec (order : TotalPreorder le)
    (compares : ∀ x y, ∃ positive, cmp x y = .normal positive ∧ (positive = true ↔ ¬ le x y))
    (sorted : SortedUpTo le old i (l.values es)) (inside : i < es.length) (v : JSTaggedValue α) :
    ∃ endIndex, sortSearch cmp l (es.map (dataIndex .single)) v i = some (.normal endIndex) ∧
      Narrows le (l.values es) v i (endIndex, endIndex) := by
  have size : old.length = es.length := by rw [← sorted.length_eq, length_values]
  refine insertionSearch_spec order (sorted.inOrder order (by omega)) (by rw [length_values]; omega)
    (fun s more => if_neg more) fun s x more _ read => ?_
  obtain ⟨positive, compared, greater⟩ := compares x v
  rw [sortSearchStep, if_pos more]
  simp only [getElement_map read, compared]
  cases positive with
  | true => exact .inr ⟨greater.mp rfl, rfl⟩
  | false => exact .inl ⟨not_not.mp (mt greater.mpr Bool.false_ne_true), rfl⟩

/-- The shift leaves the value in its place. -/
theorem sortShift_spec (enc : Encodes l es) (inside : i < es.length) (before : endIndex < i)
    (v : JSTaggedValue α) :
    Encodes (sortShift l (es.map (dataIndex .single)) v i endIndex) es ∧
      (sortShift l (es.map (dataIndex .single)) v i endIndex).values es =
        ((l.values es).eraseIdx i).insertIdx endIndex v := by
  have size : i < (l.values es).length := by rwa [length_values]
  have loop : ∀ count ≤ i, Encodes (forLoop (fun k (l : TaggedSingleList α) =>
      l.setElement ((es.map (dataIndex .single)).getD (i - k) 0)
        (l.getElement ((es.map (dataIndex .single)).getD (i - k - 1) 0))) count l) es ∧
      Shifted (l.values es) ((forLoop (fun k (l : TaggedSingleList α) =>
      l.setElement ((es.map (dataIndex .single)).getD (i - k) 0)
        (l.getElement ((es.map (dataIndex .single)).getD (i - k - 1) 0))) count l).values es) i count := by
    intro count le
    apply forLoop_spec (I := fun k l' => Encodes l' es ∧ Shifted (l.values es) (l'.values es) i k)
    · refine ⟨enc, fun m => ?_⟩
      rw [if_neg (by omega)]
    · rintro k l' more ⟨enc', shifted⟩
      obtain ⟨x, read⟩ : ∃ x, (l'.values es)[i - k - 1]? = some x :=
        ⟨_, List.getElem?_eq_getElem (by rw [length_values]; omega)⟩
      rw [getElement_map read]
      obtain ⟨enc'', written⟩ := values_setElement enc' (show i - k < es.length by omega) x
      exact ⟨enc'', written ▸ shifted_next shifted (by omega) size read⟩
  obtain ⟨enc', shifted⟩ := loop (i - endIndex) (Nat.sub_le i endIndex)
  obtain ⟨enc'', written⟩ := values_setElement enc' (show endIndex < es.length by omega) v
  exact ⟨enc'', written.trans (shifted_last before shifted size)⟩

/-- One round of `Sort`. -/
theorem sortRound_spec (order : TotalPreorder le)
    (compares : ∀ x y, ∃ positive, cmp x y = .normal positive ∧ (positive = true ↔ ¬ le x y))
    (enc : Encodes l es) (sorted : SortedUpTo le old i (l.values es)) (inside : i < es.length) :
    ∃ l', sortRound cmp (es.map (dataIndex .single)) l i = some (.normal l') ∧ Encodes l' es ∧
      SortedUpTo le old (i + 1) (l'.values es) := by
  have size : old.length = es.length := by rw [← sorted.length_eq, length_values]
  obtain ⟨v, here⟩ : ∃ v, old[i]? = some v := ⟨_, List.getElem?_eq_getElem (by omega)⟩
  have read := (sorted.getElem?_next (by omega)).trans here
  obtain ⟨endIndex, search, narrows⟩ := sortSearch_spec order compares sorted inside v
  have next := sorted.next order here narrows.inside narrows.low narrows.high
  rw [sortRound, getElement_map read, search]
  simp only [Option.bind_eq_bind, Option.bind_some]
  by_cases before : endIndex < i
  · obtain ⟨enc', values⟩ := sortShift_spec enc inside before v
    exact ⟨_, if_pos before, enc', values ▸ next⟩
  · have last : endIndex = i := Nat.le_antisymm narrows.inside (Nat.not_lt.mp before)
    refine ⟨l, if_neg before, enc, ?_⟩
    obtain ⟨below, rfl⟩ := List.getElem?_eq_some_iff.mp read
    rwa [last, List.insertIdx_eraseIdx_getElem below] at next

/-- The rounds from the `i`-th node on. -/
theorem sortRounds_spec (order : TotalPreorder le)
    (compares : ∀ x y, ∃ positive, cmp x y = .normal positive ∧ (positive = true ↔ ¬ le x y))
    (enc : Encodes l es) (sorted : SortedUpTo le old i (l.values es)) (count : Nat)
    (inside : count = 0 ∨ i + count = es.length) :
    ∃ l', (List.range' i count).foldlM (sortStep cmp (es.map (dataIndex .single))) (false, l) =
        some (false, l') ∧ Encodes l' es ∧ SortedUpTo le old (i + count) (l'.values es) := by
  induction count generalizing i l with
  | zero => exact ⟨l, rfl, enc, sorted⟩
  | succ count ih =>
    obtain ⟨l', run, enc', sorted'⟩ := sortRound_spec order compares enc sorted (by omega)
    obtain ⟨l'', rest, enc'', sorted''⟩ := ih enc' sorted' (by omega)
    refine ⟨l'', ?_, enc'', ?_⟩
    · rw [List.range'_succ, List.foldlM_cons, sortStep, if_neg Bool.false_ne_true, run]
      exact rest
    · rwa [Nat.add_right_comm] at sorted''

/-- `Sort` with a comparison by a total preorder is a stable sort. -/
theorem sort_stable (order : TotalPreorder le)
    (compares : ∀ x y, ∃ positive, cmp x y = .normal positive ∧ (positive = true ↔ ¬ le x y))
    (enc : Encodes l es) : ∃ l', sort cmp l = some l' ∧ Rearranges l l' ∧ Encodes l' es ∧
      StablySorted le (l.values es) (l'.values es) := by
  have count : l.numberOfNodes.toNat = es.length := by
    rw [numberOfNodes_eq, enc.nodes]
    rfl
  obtain ⟨l', run, enc', sorted⟩ := sortRounds_spec order compares enc
    (SortedUpTo.one le (l.values es)) (es.length - 1) (by omega)
  have sorts : sort cmp l = some l' := by
    unfold sort
    simp only [count, mapNodeIndexToDataIndex_eq enc, run]
    rfl
  obtain ⟨l'', run', rearranges⟩ := sort_rearranges cmp enc
  obtain rfl := Option.some.inj (sorts.symm.trans run')
  exact ⟨l', sorts, rearranges, enc', sorted.stablySorted (by rw [length_values]; omega)⟩

end Rounds

/-! ## `Sort` -/

section Result

variable {l : TaggedSingleList α} {es : List Nat}

/-- `Sort` is a stable sort, with undefined at the end. -/
theorem sort_orders {callbackFn : JSTaggedValue α → JSTaggedValue α → Completion JSNumber}
    {le : JSTaggedValue α → JSTaggedValue α → Prop}
    (compares : Compares JSTaggedValue.isGiven callbackFn le) (enc : Encodes l es) :
    ∃ l', sort (comparesGreater callbackFn) l = some l' ∧ Rearranges l l' ∧ Encodes l' es ∧
      StablySorted (UndefinedLast le) (l.values es) (l'.values es) :=
  sort_stable compares.totalPreorder compares.greater enc

theorem exists_values (vs : List (JSTaggedValue α)) :
    ∃ (l : TaggedSingleList α) (es : List Nat), Encodes l es ∧ l.values es = vs := by
  induction vs using List.reverseRecOn with
  | nil => exact ⟨_, [], singleCreate_encodes 0, rfl⟩
  | append_singleton vs v ih =>
    obtain ⟨l, es, enc, rfl⟩ := ih
    have last : (-1 : Int) = -1 ∧ es.length = es.length ∨ (-1 : Int) = es.length := .inl ⟨rfl, rfl⟩
    obtain ⟨l', es', e, -, enc', values, -⟩ := addNode_spec enc (Nat.le_refl es.length) v last
    refine ⟨l', _, enc', values.trans ?_⟩
    rw [← length_values l es, List.insertIdx_length_self]

/-- A callback that compares numbers. -/
def byKey (key : JSTaggedValue α → Int) (x y : JSTaggedValue α) : Completion JSNumber :=
  .normal (.int (if key y < key x then 1 else 0))

theorem compares_byKey (on : JSTaggedValue α → Prop) (key : JSTaggedValue α → Int) :
    Compares on (byKey key) fun x y => key x ≤ key y := by
  obtain ⟨-, same, above⟩ := isPositive_int
  refine ⟨fun x y _ _ => Int.le_total _ _, fun x y z _ _ _ => Int.le_trans,
    fun x y _ _ => ⟨_, rfl, ?_⟩⟩
  by_cases greater : key y < key x
  · rw [if_pos greater, above]
    simp [greater]
  · rw [if_neg greater, same]
    simp [Int.not_lt.mp greater]

theorem sort_orders_three : ∃ (l l' : TaggedSingleList Unit) (es : List Nat),
    l.values es = [.int 2, .undefined, .int 1] ∧
      sort (comparesGreater (byKey JSTaggedValue.getInt)) l = some l' ∧ Rearranges l l' ∧
      StablySorted (UndefinedLast fun x y => x.getInt ≤ y.getInt) [.int 2, .undefined, .int 1]
        (l'.values es) := by
  obtain ⟨l, es, enc, values⟩ := exists_values [.int 2, .undefined, .int (1 : Int)]
  obtain ⟨l', run, rearranges, -, sorted⟩ := sort_orders (compares_byKey _ JSTaggedValue.getInt) enc
  exact ⟨l, l', es, values, run, rearranges, values ▸ sorted⟩

/-- Undefined is at the end, also where the callback would put it at the beginning. -/
theorem sort_undefined : ¬ ∀ (l : TaggedSingleList Unit) (es : List Nat)
    (callbackFn : JSTaggedValue Unit → JSTaggedValue Unit → Completion JSNumber)
    (le : JSTaggedValue Unit → JSTaggedValue Unit → Prop),
    Encodes l es → Compares (fun _ => True) callbackFn le →
      ∃ l', sort (comparesGreater callbackFn) l = some l' ∧ Rearranges l l' ∧
        StablySorted le (l.values es) (l'.values es) := by
  intro claim
  obtain ⟨l, es, enc, values⟩ := exists_values [(.int 1 : JSTaggedValue Unit), .undefined]
  obtain ⟨l', run, -, sorted⟩ := claim l es _ _ enc (compares_byKey _ JSTaggedValue.getInt)
  have compares := compares_byKey (α := Unit) JSTaggedValue.isGiven JSTaggedValue.getInt
  obtain ⟨l'', run', -, -, sorted'⟩ := sort_stable compares.totalPreorder compares.greater enc
  obtain rfl := Option.some.inj (run.symm.trans run')
  rw [values] at sorted sorted'
  have perm := sorted.perm
  have first := sorted.pairwise
  have second := sorted'.pairwise
  generalize l'.values es = result at perm first second
  match result, perm.length_eq with
  | [a, b], _ =>
    have one : JSTaggedValue.int 1 ∈ [a, b] := perm.mem_iff.mpr List.mem_cons_self
    have undefined : JSTaggedValue.undefined ∈ [a, b] :=
      perm.mem_iff.mpr (List.mem_cons_of_mem _ List.mem_cons_self)
    rw [List.pairwise_pair] at first second
    simp only [List.mem_cons, List.not_mem_nil, or_false] at one undefined
    rcases one with rfl | rfl
    · rcases undefined with no | rfl
      · cases no
      · exact absurd first (by decide)
    · rcases undefined with rfl | no
      · rcases second with less | ⟨same, -⟩
        · exact absurd less (by decide)
        · exact absurd same (by decide)
      · cases no

end Result

end TaggedSingleList

end ArkRuntime
