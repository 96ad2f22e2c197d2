import ArkRuntime.Misc.SlotArray
import Mathlib.Algebra.Order.Ring.Int
import Mathlib.Data.List.Basic

/-!
# Maps as lists of entries
-/

/-!
## Entries in the order of their insertion

A map that keeps its entries in the order of their insertion is a list. `upsert` changes the entries
of a key in place, or adds a new one at the end; `discard` removes them.
-/

namespace ArkRuntime

variable {β : Type*} {same : β → Bool} {update : β → β} {new b : β} {l as bs : List β}

def upsert (same : β → Bool) (update : β → β) (new : β) (l : List β) : List β :=
  if l.any same then l.map fun b => if same b then update b else b else l ++ [new]

def discard (same : β → Bool) (l : List β) : List β := l.filter fun b => !same b

theorem map_update_absent (absent : ∀ x ∈ l, same x = false) :
    (l.map fun b => if same b then update b else b) = l := by
  refine (List.map_congr_left fun x mem => ?_).trans (List.map_id l)
  rw [absent x mem, if_neg Bool.false_ne_true]
  rfl

theorem upsert_present (here : same b = true) (before : ∀ x ∈ as, same x = false)
    (after : ∀ x ∈ bs, same x = false) :
    upsert same update new (as ++ b :: bs) = as ++ update b :: bs := by
  rw [upsert, if_pos (by simp [here]), List.map_append, List.map_cons, map_update_absent before,
    map_update_absent after, if_pos here]

theorem upsert_absent (absent : ∀ x ∈ l, same x = false) : upsert same update new l = l ++ [new] := by
  rw [upsert, if_neg]
  simpa using absent

theorem mem_upsert {x : β} (mem : x ∈ upsert same update new l) :
    x ∈ l ∨ (∃ y ∈ l, x = update y) ∨ (x = new ∧ ∀ y ∈ l, same y = false) := by
  unfold upsert at mem
  by_cases some : l.any same = true
  · rw [if_pos some] at mem
    obtain ⟨y, hy, rfl⟩ := List.mem_map.mp mem
    by_cases hit : same y = true
    · rw [if_pos hit]
      exact .inr (.inl ⟨y, hy, rfl⟩)
    · rw [if_neg hit]
      exact .inl hy
  · rw [if_neg some] at mem
    rcases List.mem_append.mp mem with old | fresh
    · exact .inl old
    · exact .inr (.inr ⟨List.mem_singleton.mp fresh, by simpa using some⟩)

theorem discard_present (here : same b = true) (before : ∀ x ∈ as, same x = false)
    (after : ∀ x ∈ bs, same x = false) : discard same (as ++ b :: bs) = as ++ bs := by
  unfold discard
  rw [List.filter_append, List.filter_cons_of_neg (by simp [here])]
  rw [List.filter_eq_self.mpr fun x mem => by rw [before x mem]; rfl]
  rw [List.filter_eq_self.mpr fun x mem => by rw [after x mem]; rfl]

theorem discard_absent (absent : ∀ x ∈ l, same x = false) : discard same l = l :=
  List.filter_eq_self.mpr fun x mem => by rw [absent x mem]; rfl

end ArkRuntime

/-!
## Entries in the order of their keys

A map whose keys are ordered can keep its entries in a list with strictly increasing keys. The value of a
key is then that of its only entry. A change of that value, and a new entry between the smaller and the
greater keys, keep the order and change the map at one key.
-/

namespace ArkRuntime

variable {κ β : Type*} [LinearOrder κ] {l as bs : List (κ × β)} {k : κ} {u v : β} {i j p : Nat}

def KeysIncrease (l : List (κ × β)) : Prop := l.Pairwise fun a b => a.1 < b.1

/-- An entry whose key is not in front of it. -/
theorem lookup_middle (absent : ∀ e ∈ as, e.1 ≠ k) (k' : κ) :
    (as ++ (k, v) :: bs).lookup k' = if k' = k then some v else (as ++ bs).lookup k' := by
  have first : as.lookup k = none := by
    rw [List.lookup_eq_none_iff]
    intro e mem
    exact bne_iff_ne.mpr (absent e mem).symm
  rw [List.lookup_append, List.lookup_cons, List.lookup_append]
  by_cases same : k' = k
  · subst same
    rw [first, if_pos rfl, beq_self_eq_true, Option.none_or]
  · rw [if_neg same, beq_false_of_ne same]

namespace KeysIncrease

theorem lt (increase : KeysIncrease l) {a b : κ × β} (less : i < j) (here : l[i]? = some a)
    (there : l[j]? = some b) : a.1 < b.1 := by
  obtain ⟨inside, rfl⟩ := List.getElem?_eq_some_iff.mp here
  obtain ⟨inside', rfl⟩ := List.getElem?_eq_some_iff.mp there
  exact List.pairwise_iff_getElem.mp increase i j inside inside' less

/-- A key is in one place. -/
theorem place_unique (increase : KeysIncrease l) (here : l[i]? = some (k, u))
    (there : l[j]? = some (k, v)) : i = j := by
  rcases Nat.lt_trichotomy i j with less | same | greater
  · exact absurd (increase.lt less here there) (lt_irrefl k)
  · exact same
  · exact absurd (increase.lt greater there here) (lt_irrefl k)

/-- The list around one of its entries. -/
theorem split (increase : KeysIncrease l) (here : l[i]? = some (k, v)) :
    l = l.take i ++ (k, v) :: l.drop (i + 1) ∧ ∀ e ∈ l.take i, e.1 ≠ k := by
  obtain ⟨inside, same⟩ := List.getElem?_eq_some_iff.mp here
  refine ⟨?_, fun e mem => ?_⟩
  · rw [← same, List.getElem_cons_drop, List.take_append_drop]
  · obtain ⟨m, there⟩ := List.getElem?_of_mem mem
    rw [List.getElem?_take] at there
    split_ifs at there with less
    exact ne_of_lt (increase.lt less there here)

theorem lookup_eq (increase : KeysIncrease l) (here : l[i]? = some (k, v)) : l.lookup k = some v := by
  obtain ⟨parts, absent⟩ := increase.split here
  rw [parts, lookup_middle absent, if_pos rfl]

theorem getElem?_of_lookup (found : l.lookup k = some v) : ∃ i : Nat, l[i]? = some (k, v) := by
  obtain ⟨as, bs, rfl, -⟩ := List.lookup_eq_some_iff.mp found
  exact ⟨as.length, by rw [List.getElem?_append_right (Nat.le_refl _), Nat.sub_self]; rfl⟩

/-- A new value for a key. -/
theorem set (increase : KeysIncrease l) (here : l[i]? = some (k, u)) :
    KeysIncrease (l.set i (k, v)) ∧
      ∀ k', (l.set i (k, v)).lookup k' = if k' = k then some v else l.lookup k' := by
  obtain ⟨parts, absent⟩ := increase.split here
  obtain ⟨inside, -⟩ := List.getElem?_eq_some_iff.mp here
  have after : l.set i (k, v) = l.take i ++ (k, v) :: l.drop (i + 1) :=
    List.set_eq_take_append_cons_drop.trans (if_pos inside)
  refine ⟨?_, fun k' => ?_⟩
  · unfold KeysIncrease at increase
    rw [parts, List.pairwise_append, List.pairwise_cons] at increase
    obtain ⟨front, ⟨behind, back⟩, across⟩ := increase
    rw [KeysIncrease, after, List.pairwise_append, List.pairwise_cons]
    refine ⟨front, ⟨behind, back⟩, fun a first b second => ?_⟩
    rcases List.mem_cons.mp second with rfl | second
    · exact across a first (k, u) List.mem_cons_self
    · exact across a first b (List.mem_cons_of_mem _ second)
  · rw [after, lookup_middle absent]
    by_cases same : k' = k
    · rw [if_pos same, if_pos same]
    · rw [if_neg same, if_neg same]
      conv_rhs => rw [parts, lookup_middle absent, if_neg same]

/-- A new entry at the place that cuts the smaller from the greater keys. -/
theorem insertIdx (increase : KeysIncrease l) (place : p ≤ l.length)
    (before : ∀ i < p, ∀ e, l[i]? = some e → e.1 < k)
    (behind : ∀ i, p ≤ i → ∀ e, l[i]? = some e → k < e.1) :
    KeysIncrease (l.insertIdx p (k, v)) ∧
      ∀ k', (l.insertIdx p (k, v)).lookup k' = if k' = k then some v else l.lookup k' := by
  refine ⟨pairwise_insertIdx place increase before behind, fun k' => ?_⟩
  have absent : ∀ e ∈ l.take p, e.1 ≠ k := by
    intro e mem
    obtain ⟨m, there⟩ := List.getElem?_of_mem mem
    rw [List.getElem?_take] at there
    split_ifs at there with less
    exact ne_of_lt (before m less e there)
  rw [insertIdx_eq_append place, lookup_middle absent, List.take_append_drop]

theorem sublist (increase : KeysIncrease l) (part : as.Sublist l) : KeysIncrease as :=
  List.Pairwise.sublist part increase

end KeysIncrease

/-! ### Keys and values in two lists -/

section Parallel

variable {γ δ ε : Type*} {f : γ → δ → ε} {ks : List γ} {vs : List δ} {n : Nat}

theorem zipWith_insertIdx (same : ks.length = vs.length) (place : p ≤ ks.length) (x : γ) (y : δ) :
    List.zipWith f (ks.insertIdx p x) (vs.insertIdx p y) = (List.zipWith f ks vs).insertIdx p (f x y) := by
  rw [insertIdx_eq_append place, insertIdx_eq_append (by omega), insertIdx_eq_append (by simp; omega),
    List.zipWith_append (by simp; omega), List.zipWith_cons_cons, List.take_zipWith, List.drop_zipWith]

theorem zipWith_set (x : γ) (y : δ) :
    List.zipWith f (ks.set i x) (vs.set i y) = (List.zipWith f ks vs).set i (f x y) := by
  induction ks generalizing i vs with
  | nil => rfl
  | cons k ks ih =>
    cases vs with
    | nil => cases i <;> rfl
    | cons v vs =>
      cases i with
      | zero => rfl
      | succ i => exact congrArg (f k v :: ·) ih

/-- A range of both lists is left out. -/
theorem zipWith_cut (same : ks.length = vs.length) :
    List.zipWith f (ks.take i ++ ks.drop n) (vs.take i ++ vs.drop n) =
      (List.zipWith f ks vs).take i ++ (List.zipWith f ks vs).drop n := by
  rw [List.zipWith_append (by simp; omega), List.take_zipWith, List.drop_zipWith]

end Parallel

end ArkRuntime
