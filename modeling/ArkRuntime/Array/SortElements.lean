import ArkRuntime.KeyHash.Doubles
import ArkRuntime.TaggedList.Sort

/-!
# `SortElements` and `SortElementsByObject`

The two sorts of arrays (`ecmascript/js_array.cpp`) insert one element after the other at the place that a
binary search finds. They differ in where the elements are, which is a list here, and in the type of the
result of `SortCompare`: a `double` in the one and an `int32_t` in the other, which makes 0 of a result
between -1 and 1. An array fits into the heap, so that no sum of two indices wraps around.
-/

namespace ArkRuntime

variable {α : Type} {le : JSTaggedValue α → JSTaggedValue α → Prop}

/-! ## Stable sorts -/

theorem StablySorted.unique {β : Type*} {le : β → β → Prop} {old new new' : List β}
    (sorted : StablySorted le old new) (sorted' : StablySorted le old new') : new = new' := by
  obtain ⟨numbered, perm, rfl, order⟩ := sorted
  obtain ⟨numbered', perm', rfl, order'⟩ := sorted'
  have antisymm (a b : β × Nat) (first : InOrder le a b) (second : InOrder le b a) : a = b :=
    absurd (first.2 second.1) (Nat.lt_asymm (second.2 first.1))
  rw [(perm.trans perm'.symm).eq_of_pairwise (fun a b _ _ => antisymm a b) order order']

theorem StablySorted.self {β : Type*} {le : β → β → Prop} {l : List β} (sorted : l.Pairwise le) :
    StablySorted le l l := by
  refine ⟨l.zipIdx, .refl _, List.zipIdx_map_fst .., List.pairwise_iff_getElem.mpr fun i j hi hj less => ?_⟩
  simp only [List.getElem_zipIdx, InOrder]
  rw [List.length_zipIdx] at hi hj
  exact ⟨List.pairwise_iff_getElem.mp sorted i j hi hj less, fun _ => by omega⟩

theorem SortedUpTo.subset {β : Type*} {le : β → β → Prop} {old new : List β} {i : Nat}
    (sorted : SortedUpTo le old i new) : ∀ x ∈ new, x ∈ old := by
  obtain ⟨numbered, perm, -, rfl⟩ := sorted
  intro x mem
  rcases List.mem_append.mp mem with first | last
  · obtain ⟨a, among, rfl⟩ := List.mem_map.mp first
    have here := List.mem_of_mem_take (perm.mem_iff.mp among)
    have value := List.mem_map_of_mem (f := Prod.fst) here
    rwa [List.zipIdx_map_fst] at value
  · exact List.mem_of_mem_drop last

namespace JSArray

/-! ## The sorts -/

/-- One round of the binary search, at `(beginIndex, endIndex)`. -/
def sortSearchStep (greater : JSTaggedValue α → JSTaggedValue α → Completion Bool)
    (elements : List (JSTaggedValue α)) (presentValue : JSTaggedValue α) (s : Nat × Nat) :
    (Nat × Nat) ⊕ Completion Nat :=
  if s.1 < s.2 then
    let middleIndex := (s.1 + s.2) / 2
    let middleValue := elements.getD middleIndex .hole
    match greater middleValue presentValue with
    | .abrupt => .inr .abrupt
    | .normal true => .inl (s.1, middleIndex)
    | .normal false => .inl (middleIndex + 1, s.2)
  else .inr (.normal s.2)

/-- The elements at `endIndex, ..., i - 1` move one place up. -/
def sortShift (elements : List (JSTaggedValue α)) (presentValue : JSTaggedValue α) (i endIndex : Nat) :
    List (JSTaggedValue α) :=
  let elements := forLoop (fun k (elements : List (JSTaggedValue α)) =>
    let j := i - k
    elements.set j (elements.getD (j - 1) .hole)) (i - endIndex) elements
  elements.set endIndex presentValue

/-- The round for the element `i`; an exception in the callback ends the loop. -/
def sortStep (greater : JSTaggedValue α → JSTaggedValue α → Completion Bool)
    (s : Bool × List (JSTaggedValue α)) (i : Nat) : Option (Bool × List (JSTaggedValue α)) :=
  if s.1 then some s
  else do
    let presentValue := s.2.getD i .hole
    match ← iter (sortSearchStep greater s.2 presentValue) (i + 1) (0, i) with
    | .abrupt => some (true, s.2)
    | .normal endIndex =>
      if endIndex < i then some (false, sortShift s.2 presentValue i endIndex) else some s

/-- The elements as they are left. -/
def sortWith (greater : JSTaggedValue α → JSTaggedValue α → Completion Bool)
    (elements : List (JSTaggedValue α)) : Option (List (JSTaggedValue α)) :=
  ((List.range' 1 (elements.length - 1)).foldlM (sortStep greater) (false, elements)).map Prod.snd

/-- `SortElements`. -/
def sortElements (callbackFn : JSTaggedValue α → JSTaggedValue α → Completion JSNumber)
    (elements : List (JSTaggedValue α)) : Option (List (JSTaggedValue α)) :=
  sortWith (comparesGreater callbackFn) elements

/-- The comparison of `SortElementsByObject`: `compareResult` is an `int32_t`. -/
def comparesGreaterInt32 (platform : KeyHash.Platform)
    (callbackFn : JSTaggedValue α → JSTaggedValue α → Completion JSNumber)
    (middleValue presentValue : JSTaggedValue α) : Completion Bool :=
  match sortCompare callbackFn middleValue presentValue with
  | .abrupt => .abrupt
  | .normal compareResult => .normal (0 < platform.castInt32 compareResult.getNumber)

/-- `SortElementsByObject`. -/
def sortElementsByObject (platform : KeyHash.Platform)
    (callbackFn : JSTaggedValue α → JSTaggedValue α → Completion JSNumber)
    (elements : List (JSTaggedValue α)) : Option (List (JSTaggedValue α)) :=
  sortWith (comparesGreaterInt32 platform callbackFn) elements

/-! ## The rounds -/

section Rounds

variable {greater : JSTaggedValue α → JSTaggedValue α → Completion Bool}
  {elements old : List (JSTaggedValue α)} {v : JSTaggedValue α} {i endIndex : Nat}

theorem sortShift_eq (inside : i < elements.length) (before : endIndex < i) (v : JSTaggedValue α) :
    sortShift elements v i endIndex = (elements.eraseIdx i).insertIdx endIndex v := by
  have shifted : ∀ count ≤ i, Shifted elements (forLoop (fun k (elements : List (JSTaggedValue α)) =>
      elements.set (i - k) (elements.getD (i - k - 1) .hole)) count elements) i count := by
    intro count le
    apply forLoop_spec (I := fun k elements' => Shifted elements elements' i k)
    · intro m
      rw [if_neg (by omega)]
    · intro k elements' more shifted
      have below := shifted.inside (m := i - k - 1) (by omega) (by omega)
      rw [List.getD_eq_getElem _ _ below]
      exact shifted_next shifted (by omega) inside (List.getElem?_eq_getElem below)
  exact shifted_last before (shifted _ (Nat.sub_le i endIndex)) inside

/-- `greater` decides the order of the elements. -/
def Decides (greater : JSTaggedValue α → JSTaggedValue α → Completion Bool)
    (le : JSTaggedValue α → JSTaggedValue α → Prop) (elements : List (JSTaggedValue α)) : Prop :=
  ∀ x ∈ elements, ∀ y ∈ elements, ∃ positive, greater x y = .normal positive ∧ (positive = true ↔ ¬ le x y)

theorem sortStep_spec (order : TotalPreorder le) (decides : Decides greater le old)
    (sorted : SortedUpTo le old i elements) (inside : i < old.length) :
    ∃ elements', sortStep greater (false, elements) i = some (false, elements') ∧
      SortedUpTo le old (i + 1) elements' := by
  have size := sorted.length_eq
  have here : old[i]? = some old[i] := List.getElem?_eq_getElem inside
  have read := (sorted.getElem?_next inside).trans here
  have present : elements.getD i .hole = old[i] := by rw [List.getD_eq_getElem?_getD, read, Option.getD_some]
  have stop : ∀ s, ¬ s.1 < s.2 → sortSearchStep greater elements old[i] s = .inr (.normal s.2) :=
    fun s more => if_neg more
  obtain ⟨endIndex, search, narrows⟩ := insertionSearch_spec order
    (sorted.inOrder order (Nat.le_of_lt inside)) (by omega) stop (by
      intro s x more _ middle
      obtain ⟨positive, compared, above⟩ :=
        decides x (sorted.subset x (List.mem_of_getElem? middle)) old[i] (List.getElem_mem inside)
      have value : elements.getD ((s.1 + s.2) / 2) .hole = x := by
        rw [List.getD_eq_getElem?_getD, middle, Option.getD_some]
      rw [sortSearchStep, if_pos more]
      simp only [value, compared]
      cases positive with
      | true => exact .inr ⟨above.mp rfl, rfl⟩
      | false => exact .inl ⟨not_not.mp (mt above.mpr Bool.false_ne_true), rfl⟩)
  have next := sorted.next order here narrows.inside narrows.low narrows.high
  rw [sortStep, if_neg Bool.false_ne_true]
  simp only [present, search, Option.bind_eq_bind, Option.bind_some]
  by_cases before : endIndex < i
  · refine ⟨_, if_pos before, ?_⟩
    rw [sortShift_eq (size ▸ inside) before]
    exact next
  · have last : endIndex = i := Nat.le_antisymm narrows.inside (Nat.not_lt.mp before)
    refine ⟨elements, if_neg before, ?_⟩
    obtain ⟨below, same⟩ := List.getElem?_eq_some_iff.mp read
    rwa [last, ← same, List.insertIdx_eraseIdx_getElem below] at next

theorem sortSteps_spec (order : TotalPreorder le) (decides : Decides greater le old)
    (sorted : SortedUpTo le old i elements) (count : Nat) (inside : count = 0 ∨ i + count = old.length) :
    ∃ elements', (List.range' i count).foldlM (sortStep greater) (false, elements) =
        some (false, elements') ∧ SortedUpTo le old (i + count) elements' := by
  induction count generalizing i elements with
  | zero => exact ⟨elements, rfl, sorted⟩
  | succ count ih =>
    obtain ⟨elements', run, sorted'⟩ := sortStep_spec order decides sorted (by omega)
    obtain ⟨elements'', rest, sorted''⟩ := ih sorted' (by omega)
    refine ⟨elements'', ?_, ?_⟩
    · rw [List.range'_succ, List.foldlM_cons, run]
      exact rest
    · rwa [Nat.add_right_comm] at sorted''

/-- A sort with a comparison that decides a total preorder is stable. -/
theorem sortWith_stable (order : TotalPreorder le) (decides : Decides greater le old) :
    ∃ new, sortWith greater old = some new ∧ StablySorted le old new := by
  obtain ⟨new, run, sorted⟩ :=
    sortSteps_spec order decides (SortedUpTo.one le old) (old.length - 1) (by omega)
  exact ⟨new, by rw [sortWith, run]; rfl, sorted.stablySorted (by omega)⟩

/-- Two elements. -/
theorem sortWith_pair {x y : JSTaggedValue α} {positive : Bool} (compared : greater x y = .normal positive) :
    sortWith greater [x, y] = some (if positive then [y, x] else [x, y]) := by
  cases positive <;> simp [sortWith, sortStep, iter, sortSearchStep, compared, sortShift, forLoop]

end Rounds

/-! ## The type of the result -/

end JSArray

/-- `compareResult < 0`. -/
def JSNumber.isNegative (compareResult : JSNumber) : Bool :=
  let num := compareResult.getNumber
  !KeyHash.isNaN num && KeyHash.signbit num && !KeyHash.isZeroDouble num

namespace JSArray

/-- The callback does not throw, and the signs of its results are the order `le`. -/
structure Orders (callbackFn : JSTaggedValue α → JSTaggedValue α → Completion JSNumber)
    (le : JSTaggedValue α → JSTaggedValue α → Prop) : Prop where
  total : ∀ x y, x.isGiven → y.isGiven → le x y ∨ le y x
  trans : ∀ x y z, x.isGiven → y.isGiven → z.isGiven → le x y → le y z → le x z
  result : ∀ x y, x.isGiven → y.isGiven → ∃ value, callbackFn x y = .normal value ∧
    (value.isPositive = true ↔ ¬ le x y) ∧ (value.isNegative = true ↔ ¬ le y x)

/-- What the callback returns is positive as an `int32_t` exactly if it is positive. -/
def SameTest (platform : KeyHash.Platform)
    (callbackFn : JSTaggedValue α → JSTaggedValue α → Completion JSNumber) (x y : JSTaggedValue α) : Prop :=
  x.isGiven → y.isGiven → ∀ value, callbackFn x y = .normal value →
    KeyHash.isNaN value.getNumber = true ∨
      (0 < platform.castInt32 value.getNumber ↔ value.isPositive = true)

/-- Both sorts leave the stable sorted permutation. -/
def SortsStably (platform : KeyHash.Platform)
    (callbackFn : JSTaggedValue α → JSTaggedValue α → Completion JSNumber)
    (le : JSTaggedValue α → JSTaggedValue α → Prop) (elements : List (JSTaggedValue α)) : Prop :=
  ∃ result, sortElements callbackFn elements = some result ∧
    sortElementsByObject platform callbackFn elements = some result ∧
    StablySorted (UndefinedLast le) elements result

section Results

variable {callbackFn : JSTaggedValue α → JSTaggedValue α → Completion JSNumber} {platform : KeyHash.Platform}
  {x y : JSTaggedValue α}

theorem Orders.compares (orders : Orders callbackFn le) : Compares JSTaggedValue.isGiven callbackFn le :=
  ⟨orders.total, orders.trans, fun x y givenX givenY =>
    let ⟨value, returned, positive, _⟩ := orders.result x y givenX givenY
    ⟨value, returned, positive⟩⟩

theorem castInt32_small (platform : KeyHash.Platform) : ¬ 0 < platform.castInt32 (JSNumber.int 0).getNumber ∧
    0 < platform.castInt32 (JSNumber.int 1).getNumber ∧
    ¬ 0 < platform.castInt32 (JSNumber.int (-1)).getNumber := by
  simp only [JSNumber.getNumber, KeyHash.castInt32_doubleOfInt]
  decide

/-- The two comparisons of values with the same test are the same. -/
theorem comparesGreaterInt32_eq (orders : Orders callbackFn le) (same : SameTest platform callbackFn x y) :
    comparesGreaterInt32 platform callbackFn x y = comparesGreater callbackFn x y := by
  obtain ⟨zero, one, less⟩ := castInt32_small platform
  obtain ⟨below, equal, above⟩ := isPositive_int
  by_cases given : x.sortRank = 0 ∧ y.sortRank = 0
  · have givenX := (isGiven_iff x).mpr given.1
    have givenY := (isGiven_iff y).mpr given.2
    obtain ⟨value, returned, -⟩ := orders.result x y givenX givenY
    rw [comparesGreaterInt32, comparesGreater, sortCompare_given given.1 given.2 returned]
    split_ifs with number
    · simp [zero, equal]
    · exact congrArg Completion.normal (Bool.eq_iff_iff.mpr (decide_eq_true_iff.trans
        ((same givenX givenY value returned).resolve_left number)))
  · rw [not_and_or] at given
    rw [comparesGreaterInt32, comparesGreater, sortCompare_ranks callbackFn given]
    split_ifs
    · simp [less, below]
    · simp [zero, equal]
    · simp [one, above]

theorem sortElements_stable (orders : Orders callbackFn le) (elements : List (JSTaggedValue α)) :
    ∃ result, sortElements callbackFn elements = some result ∧
      StablySorted (UndefinedLast le) elements result :=
  sortWith_stable orders.compares.totalPreorder fun x _ y _ => orders.compares.greater x y

theorem sortsStably_of_sameTest (orders : Orders callbackFn le) {elements : List (JSTaggedValue α)}
    (same : ∀ x ∈ elements, ∀ y ∈ elements, SameTest platform callbackFn x y) :
    SortsStably platform callbackFn le elements := by
  obtain ⟨result, run, sorted⟩ := sortElements_stable orders elements
  have decides : Decides (comparesGreaterInt32 platform callbackFn) (UndefinedLast le) elements := fun x hx y hy => by
    rw [comparesGreaterInt32_eq orders (same x hx y hy)]
    exact orders.compares.greater x y
  obtain ⟨result', run', sorted'⟩ := sortWith_stable orders.compares.totalPreorder decides
  exact ⟨result, run, sorted.unique sorted' ▸ run', sorted⟩

/-- A pair of elements shows the result of the comparison. -/
theorem sameTest_of_pair (orders : Orders callbackFn le)
    (sorts : SortsStably platform callbackFn le [x, y]) : SameTest platform callbackFn x y := by
  intro givenX givenY value returned
  obtain ⟨value', returned', positive, negative⟩ := orders.result x y givenX givenY
  cases returned.symm.trans returned'
  by_cases number : KeyHash.isNaN value.getNumber = true
  · exact .inl number
  refine .inr ?_
  rw [Bool.not_eq_true] at number
  by_cases apart : x = y
  · subst apart
    have here := (orders.total x x givenX givenX).elim id id
    have above : ¬ value.isPositive = true := mt positive.mp (not_not_intro here)
    have below : ¬ value.isNegative = true := mt negative.mp (not_not_intro here)
    have zero : KeyHash.isZeroDouble value.getNumber = true := by
      simp only [JSNumber.isPositive, JSNumber.isNegative, number] at above below
      cases sign : KeyHash.signbit value.getNumber <;> simpa [sign] using And.intro above below
    rw [KeyHash.castInt32_of_isZero platform zero]
    exact iff_of_false (by decide) above
  · have ranks := And.intro ((isGiven_iff x).mp givenX) ((isGiven_iff y).mp givenY)
    obtain ⟨result, run, run', -⟩ := sorts
    have direct : comparesGreater callbackFn x y = .normal value.isPositive := by
      rw [comparesGreater, sortCompare_given ranks.1 ranks.2 returned, number]
      rfl
    have cast : comparesGreaterInt32 platform callbackFn x y =
        .normal (decide (0 < platform.castInt32 value.getNumber)) := by
      rw [comparesGreaterInt32, sortCompare_given ranks.1 ranks.2 returned, number]
      rfl
    have lists := run'.trans run.symm
    rw [sortElementsByObject, sortElements, sortWith_pair direct, sortWith_pair cast,
      Option.some.injEq] at lists
    rw [← decide_eq_true_iff (p := 0 < _), ← Bool.eq_iff_iff]
    revert lists
    cases decide (0 < platform.castInt32 value.getNumber) <;> cases value.isPositive <;>
      simp [apart, Ne.symm apart]

/-- `SortElements` is a stable sort. `SortElementsByObject` leaves the same for all lists of elements whose
    comparisons keep their test as an `int32_t`; it does so for every list exactly if all comparisons of the
    callback keep it. -/
theorem sortElementsByObject_stable_iff (platform : KeyHash.Platform)
    (callbackFn : JSTaggedValue α → JSTaggedValue α → Completion JSNumber)
    (le : JSTaggedValue α → JSTaggedValue α → Prop) (orders : Orders callbackFn le) :
    (∀ elements, ∃ result, sortElements callbackFn elements = some result ∧
      StablySorted (UndefinedLast le) elements result) ∧
    (∀ elements, (∀ x ∈ elements, ∀ y ∈ elements, SameTest platform callbackFn x y) →
      SortsStably platform callbackFn le elements) ∧
    ((∀ elements, SortsStably platform callbackFn le elements) ↔
      ∀ x y, SameTest platform callbackFn x y) :=
  ⟨sortElements_stable orders, fun _ => sortsStably_of_sameTest orders,
    fun sorts x y => sameTest_of_pair orders (sorts [x, y]),
    fun same _ => sortsStably_of_sameTest orders fun x _ y _ => same x y⟩

/-- A callback that compares keys, with its results for greater and smaller ones. -/
def bySign (above below : JSNumber) (key : JSTaggedValue α → Int) (x y : JSTaggedValue α) :
    Completion JSNumber :=
  .normal (if key y < key x then above else if key x < key y then below else .int 0)

theorem orders_bySign {above below : JSNumber} (positive : above.isPositive = true)
    (negative : below.isNegative = true) (key : JSTaggedValue α → Int) :
    Orders (bySign above below key) fun x y => key x ≤ key y := by
  have exclusive (value : JSNumber) : ¬ (value.isPositive = true ∧ value.isNegative = true) := by
    simp only [JSNumber.isPositive, JSNumber.isNegative]
    cases KeyHash.signbit value.getNumber <;> simp
  have zero : (JSNumber.int 0).isPositive = false ∧ (JSNumber.int 0).isNegative = false := by decide
  refine ⟨fun x y _ _ => Int.le_total _ _, fun x y z _ _ _ => Int.le_trans, fun x y _ _ => ⟨_, rfl, ?_⟩⟩
  rcases Int.lt_trichotomy (key x) (key y) with less | same | greater
  · have other : ¬ below.isPositive = true := fun both => exclusive below ⟨both, negative⟩
    rw [if_neg (by omega), if_pos less]
    exact ⟨iff_of_false other (by omega), iff_of_true negative (by omega)⟩
  · rw [if_neg (by omega), if_neg (by omega), zero.1, zero.2]
    exact ⟨iff_of_false Bool.false_ne_true (by omega), iff_of_false Bool.false_ne_true (by omega)⟩
  · have other : ¬ above.isNegative = true := fun both => exclusive above ⟨positive, both⟩
    rw [if_pos greater]
    exact ⟨iff_of_true positive (by omega), iff_of_false other (by omega)⟩

/-- The platform that casts what does not fit to 0. -/
def zeroPlatform : KeyHash.Platform := ⟨fun _ => 0, fun _ => 0⟩

/-- Half the sign of the difference, for 2 and 1. -/
theorem sortElementsByObject_halves : ¬ ∀ (platform : KeyHash.Platform)
    (callbackFn : JSTaggedValue Unit → JSTaggedValue Unit → Completion JSNumber)
    (le : JSTaggedValue Unit → JSTaggedValue Unit → Prop) (elements : List (JSTaggedValue Unit)),
    Orders callbackFn le → SortsStably platform callbackFn le elements := by
  intro claim
  have positive : (JSNumber.double 0x3FE0000000000000).isPositive = true := by decide
  have negative : (JSNumber.double 0xBFE0000000000000).isNegative = true := by decide
  have orders := orders_bySign positive negative (JSTaggedValue.getInt (α := Unit))
  obtain ⟨result, run, run', -⟩ := claim zeroPlatform _ _ [.int 2, .int 1] orders
  have swapped : sortElements (bySign (.double 0x3FE0000000000000) (.double 0xBFE0000000000000)
      JSTaggedValue.getInt) [.int 2, .int (α := Unit) 1] = some [.int 1, .int 2] := by decide +kernel
  have kept : sortElementsByObject zeroPlatform (bySign (.double 0x3FE0000000000000)
      (.double 0xBFE0000000000000) JSTaggedValue.getInt) [.int 2, .int (α := Unit) 1] =
      some [.int 2, .int 1] := by decide +kernel
  exact absurd (kept.symm.trans (run'.trans (run.symm.trans swapped))) (by decide)

/-- The sign of the difference. -/
theorem sortElementsByObject_signs :
    ((∀ elements, SortsStably zeroPlatform (bySign (.int 1) (.int (-1)) (JSTaggedValue.getInt (α := Unit)))
        (fun x y => x.getInt ≤ y.getInt) elements) ↔
      ∀ x y, SameTest zeroPlatform (bySign (.int 1) (.int (-1)) (JSTaggedValue.getInt (α := Unit))) x y) :=
  (sortElementsByObject_stable_iff zeroPlatform _ _
    (orders_bySign (by decide) (by decide) JSTaggedValue.getInt)).2.2

/-- What has been sorted stays as it is when it is sorted again. -/
theorem sortElements_again {callbackFn : JSTaggedValue α → JSTaggedValue α → Completion JSNumber}
    {le : JSTaggedValue α → JSTaggedValue α → Prop} (orders : Orders callbackFn le)
    {elements result : List (JSTaggedValue α)} (ran : sortElements callbackFn elements = some result) :
    sortElements callbackFn result = some result := by
  obtain ⟨first, run, sorted⟩ := sortElements_stable orders elements
  obtain ⟨second, run', sorted'⟩ := sortElements_stable orders result
  cases ran.symm.trans run
  rw [run', sorted'.unique (StablySorted.self sorted.pairwise)]

theorem sortElements_again_signs :
    sortElements (bySign (.int 1) (.int (-1)) JSTaggedValue.getInt) [.int 1, .int (α := Unit) 2] =
      some [.int 1, .int 2] :=
  sortElements_again (orders_bySign (by decide) (by decide) _)
    (show sortElements _ [.int 2, .int 1] = _ by decide +kernel)

end Results

end JSArray

end ArkRuntime
