import ArkRuntime.Misc.SlotArray
import Mathlib.Data.List.Sort

/-!
# Sorted lists
-/

/-!
## Stable sorting by insertion

A sort is stable if values that the order does not tell apart stay in the order in which they were. The
values are numbered by their places to say so. A sort by insertion is stable if every value goes behind the
values that are at most as great, as long as the ones before it are in order: `SortedUpTo`.
-/

namespace ArkRuntime

variable {β : Type*} {le : β → β → Prop} {old new : List β} {i e : Nat} {v : β}

structure TotalPreorder (le : β → β → Prop) : Prop where
  total : ∀ x y, le x y ∨ le y x
  trans : ∀ x y z, le x y → le y z → le x z

theorem TotalPreorder.refl (order : TotalPreorder le) (x : β) : le x x := (order.total x x).elim id id

/-- A value with its old place may stand before another one. -/
def InOrder (le : β → β → Prop) (a b : β × Nat) : Prop := le a.1 b.1 ∧ (le b.1 a.1 → a.2 < b.2)

/-- The values in order, and where they are equal in it, as they were. -/
def StablySorted (le : β → β → Prop) (old new : List β) : Prop :=
  ∃ numbered : List (β × Nat), numbered.Perm old.zipIdx ∧ numbered.map Prod.fst = new ∧
    numbered.Pairwise (InOrder le)

theorem StablySorted.perm (sorted : StablySorted le old new) : new.Perm old := by
  obtain ⟨numbered, perm, rfl, -⟩ := sorted
  have values := perm.map Prod.fst
  rwa [List.zipIdx_map_fst] at values

theorem StablySorted.pairwise (sorted : StablySorted le old new) : new.Pairwise le := by
  obtain ⟨numbered, -, rfl, order⟩ := sorted
  exact List.pairwise_map.mpr (order.imp fun inOrder => inOrder.1)

/-- The first `i` values are sorted, the others are where they were. -/
def SortedUpTo (le : β → β → Prop) (old : List β) (i : Nat) (new : List β) : Prop :=
  ∃ numbered : List (β × Nat), numbered.Perm (old.zipIdx.take i) ∧ numbered.Pairwise (InOrder le) ∧
    new = numbered.map Prod.fst ++ old.drop i

namespace SortedUpTo

theorem one (le : β → β → Prop) (old : List β) : SortedUpTo le old 1 old := by
  refine ⟨old.zipIdx.take 1, List.Perm.refl _, ?_, ?_⟩
  · cases old with
    | nil => exact List.Pairwise.nil
    | cons v rest => exact List.pairwise_singleton _ _
  · rw [List.map_take, List.zipIdx_map_fst, List.take_append_drop]

theorem stablySorted (sorted : SortedUpTo le old i new) (all : old.length ≤ i) :
    StablySorted le old new := by
  obtain ⟨numbered, perm, order, rfl⟩ := sorted
  rw [List.take_of_length_le (by simpa using all)] at perm
  exact ⟨numbered, perm, by rw [List.drop_eq_nil_of_le all, List.append_nil], order⟩

theorem length_eq (sorted : SortedUpTo le old i new) : new.length = old.length := by
  obtain ⟨numbered, perm, -, rfl⟩ := sorted
  have size := perm.length_eq
  rw [List.length_take, List.length_zipIdx] at size
  rw [List.length_append, List.length_map, List.length_drop]
  omega

/-- The value that is inserted next. -/
theorem getElem?_next (sorted : SortedUpTo le old i new) (inside : i < old.length) :
    new[i]? = old[i]? := by
  obtain ⟨numbered, perm, -, rfl⟩ := sorted
  have size := perm.length_eq
  rw [List.length_take, List.length_zipIdx, Nat.min_eq_left (Nat.le_of_lt inside)] at size
  rw [List.getElem?_append_right (by simp [size]), List.length_map, size, List.getElem?_drop, Nat.sub_self,
    Nat.add_zero]

/-- The first values are in order. -/
theorem le_of_le (order : TotalPreorder le) (sorted : SortedUpTo le old i new) (inside : i ≤ old.length)
    {m n : Nat} {x y : β} (before : m ≤ n) (below : n < i) (first : new[m]? = some x)
    (second : new[n]? = some y) : le x y := by
  obtain ⟨numbered, perm, pairwise, rfl⟩ := sorted
  have size := perm.length_eq
  rw [List.length_take, List.length_zipIdx, Nat.min_eq_left inside] at size
  have values : (numbered.map Prod.fst).Pairwise le :=
    List.pairwise_map.mpr (pairwise.imp fun inOrder => inOrder.1)
  rw [List.getElem?_append_left (by simp [size]; omega)] at first second
  obtain ⟨hm, rfl⟩ := List.getElem?_eq_some_iff.mp first
  obtain ⟨hn, rfl⟩ := List.getElem?_eq_some_iff.mp second
  rcases Nat.eq_or_lt_of_le before with rfl | less
  · exact order.refl _
  · exact List.pairwise_iff_getElem.mp values m n hm hn less

/-- The next value goes to its place. -/
theorem next (order : TotalPreorder le) (sorted : SortedUpTo le old i new) (here : old[i]? = some v)
    (inside : e ≤ i) (low : ∀ m < e, ∀ x, new[m]? = some x → le x v)
    (high : ∀ m, e ≤ m → m < i → ∀ x, new[m]? = some x → ¬ le x v) :
    SortedUpTo le old (i + 1) ((new.eraseIdx i).insertIdx e v) := by
  obtain ⟨below, rfl⟩ := List.getElem?_eq_some_iff.mp here
  obtain ⟨numbered, perm, pairwise, rfl⟩ := sorted
  have size := perm.length_eq
  rw [List.length_take, List.length_zipIdx, Nat.min_eq_left (Nat.le_of_lt below)] at size
  have numbers : ∀ a ∈ numbered, a.2 < i := by
    intro a mem
    have among := perm.mem_iff.mp mem
    obtain ⟨k, hk, rfl⟩ := List.mem_take_iff_getElem.mp among
    rw [List.getElem_zipIdx]
    simp only
    omega
  have places : e ≤ numbered.length := size ▸ inside
  have value : ∀ (m : Nat) (a : β × Nat), numbered[m]? = some a →
      (numbered.map Prod.fst ++ old.drop i)[m]? = some a.1 := by
    intro m a read
    obtain ⟨hm, rfl⟩ := List.getElem?_eq_some_iff.mp read
    rw [List.getElem?_append_left (by simpa using hm), List.getElem?_map, read]
    rfl
  refine ⟨numbered.insertIdx e (old[i], i), ?_, ?_, ?_⟩
  · have longer : old.zipIdx.take (i + 1) = old.zipIdx.take i ++ [(old[i], i)] := by
      rw [List.take_succ_eq_append_getElem (by simpa using below), List.getElem_zipIdx, Nat.zero_add]
    rw [longer]
    refine (List.perm_insertIdx _ _ places).trans ?_
    exact (List.Perm.cons _ perm).trans (List.perm_append_singleton _ _).symm
  · apply pairwise_insertIdx places pairwise
    · intro m before a read
      exact ⟨low m before a.1 (value m a read), fun _ => numbers a (List.mem_of_getElem? read)⟩
    · intro m behind a read
      obtain ⟨hm, -⟩ := List.getElem?_eq_some_iff.mp read
      have greater := high m behind (size ▸ hm) a.1 (value m a read)
      exact ⟨(order.total _ _).resolve_right greater, fun le => absurd le greater⟩
  · have erased : (numbered.map Prod.fst ++ old.drop i).eraseIdx i =
        numbered.map Prod.fst ++ old.drop (i + 1) := by
      rw [List.eraseIdx_append_of_length_le (by simp [size]), List.length_map, size, Nat.sub_self,
        List.eraseIdx_zero, List.tail_drop]
    rw [erased, insertIdx_eq_append (by simp; omega), insertIdx_eq_append places,
      List.take_append_of_le_length (by simpa using places),
      List.drop_append_of_le_length (by simpa using places)]
    simp

end SortedUpTo

end ArkRuntime

/-!
## Subsequences

A search that takes every value at the first place behind the one before it decides whether a list is a
subsequence of another one. For sorted lists that is a comparison of the numbers of times that each value
occurs.
-/

namespace ArkRuntime

variable {β : Type*} {x : β} {l m front rest : List β}

theorem not_sublist_of_absent (absent : x ∉ m) : ¬ (x :: l).Sublist m := by
  intro sub
  exact absent (sub.subset List.mem_cons_self)

/-- The first place of a value is good enough. -/
theorem cons_sublist_append_iff (absent : x ∉ front) :
    (x :: l).Sublist (front ++ x :: rest) ↔ l.Sublist rest := by
  induction front with
  | nil => exact List.cons_sublist_cons
  | cons y front ih =>
    rw [List.mem_cons, not_or] at absent
    rw [List.cons_append, List.cons_sublist_cons', ih absent.2]
    exact or_iff_left fun both => absent.1 both.1

theorem sublist_iff_count [DecidableEq β] {r : β → β → Prop} [Std.Antisymm r] (sortedL : l.Pairwise r)
    (sortedM : m.Pairwise r) : l.Sublist m ↔ ∀ x, l.count x ≤ m.count x := by
  constructor
  · intro sub x
    exact sub.count_le x
  · intro counts
    have subperm : l.Subperm m := List.subperm_ext_iff.mpr fun x _ => counts x
    exact List.sublist_of_subperm_of_pairwise subperm sortedL sortedM

/-- Values of different classes that are all equivalent to values of `m`: their classes are among those of `m`. -/
theorem classes_subperm [classes : Setoid β] (different : l.Pairwise fun x y => ¬ x ≈ y)
    (among : ∀ x ∈ l, ∃ y ∈ m, y ≈ x) :
    (l.map (Quotient.mk classes)).Subperm (m.map (Quotient.mk classes)) := by
  have nodup : (l.map (Quotient.mk classes)).Nodup :=
    List.pairwise_map.mpr (different.imp fun other same => other (Quotient.exact same))
  refine List.subperm_of_subset nodup fun q mem => ?_
  obtain ⟨x, here, rfl⟩ := List.mem_map.mp mem
  obtain ⟨y, there, same⟩ := among x here
  exact List.mem_map.mpr ⟨y, there, Quotient.sound same⟩

/-- What only depends on the class occurs in `m` at least as often. -/
theorem count_map_le {γ : Type*} [DecidableEq γ] [classes : Setoid β] {f : β → γ}
    (respects : ∀ x y, x ≈ y → f x = f y) (different : l.Pairwise fun x y => ¬ x ≈ y)
    (among : ∀ x ∈ l, ∃ y ∈ m, y ≈ x) (c : γ) : (l.map f).count c ≤ (m.map f).count c := by
  have values : ∀ k : List β,
      (k.map (Quotient.mk classes)).map (Quotient.lift f respects) = k.map f := by
    intro k
    rw [List.map_map]
    rfl
  obtain ⟨k, perm, sub⟩ := classes_subperm different among
  rw [← values l, ← values m, ← (perm.map _).count_eq]
  exact (sub.map _).count_le c

/-- If there are no more values in `m`, they are equivalent to values of the list. -/
theorem exists_of_length_le [classes : Setoid β] (different : l.Pairwise fun x y => ¬ x ≈ y)
    (among : ∀ x ∈ l, ∃ y ∈ m, y ≈ x) (length : m.length ≤ l.length) : ∀ y ∈ m, ∃ x ∈ l, x ≈ y := by
  intro y mem
  have perm := (classes_subperm different among).perm_of_length_le (by rwa [List.length_map, List.length_map])
  obtain ⟨x, here, same⟩ := List.mem_map.mp (perm.mem_iff.mpr (List.mem_map_of_mem mem))
  exact ⟨x, here, Quotient.exact same⟩

end ArkRuntime
