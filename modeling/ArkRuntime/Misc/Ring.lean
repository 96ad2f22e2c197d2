import Mathlib.Data.List.Chain
import Mathlib.Data.List.GetD
import Mathlib.Data.List.Nodup

/-!
# Rings of linked nodes

A linked list that starts and ends at a sentinel `s`: the nodes of `s :: es ++ [s]` are linked one to
the next by the relation `R`. What a link is (a next pointer, a next and a previous pointer) is left
open; `Ring.insert` and `Ring.remove` say which links a new relation has to get right when a node is
linked in or taken out.
-/

namespace ArkRuntime

variable {ν : Type*} {R R' : ν → ν → Prop} {s e : ν} {es as bs : List ν}

def Ring (R : ν → ν → Prop) (s : ν) (es : List ν) : Prop := (s :: es ++ [s]).IsChain R

/-- The node after `i` steps from the sentinel. -/
def ringNode (s : ν) (es : List ν) (i : Nat) : ν := (s :: es).getD i s

@[simp] theorem ringNode_zero : ringNode s es 0 = s := rfl

theorem ringNode_succ {i : Nat} (below : i < es.length) : ringNode s es (i + 1) = es[i] := by
  simp [ringNode, below]

theorem ringNode_end {i : Nat} (past : es.length ≤ i) : ringNode s es (i + 1) = s := by
  simp [ringNode, past]

theorem ringNode_append_left : ringNode s (as ++ bs) as.length = as.getLastD s := by
  cases as using List.reverseRecOn with
  | nil => rfl
  | append_singleton as a => simp [ringNode]

theorem ringNode_length : ringNode s es es.length = es.getLastD s := by
  have split := @ringNode_append_left _ s es []
  rwa [List.append_nil] at split

theorem getElem_ring (j : Nat) (h : j < (s :: es ++ [s]).length) :
    (s :: es ++ [s])[j] = ringNode s es j := by
  rcases Nat.lt_or_ge j (es.length + 1) with low | high
  · have inside : j < (s :: es).length := by simpa using low
    rw [List.getElem_append_left inside, ringNode, List.getD_eq_getElem _ _ inside]
  · have last : j = es.length + 1 := by simp at h; omega
    subst last
    simp [ringNode]

/-- The ring, step by step. -/
theorem ring_iff : Ring R s es ↔
    ∀ i, i ≤ es.length → R (ringNode s es i) (ringNode s es (i + 1)) := by
  rw [Ring, List.isChain_iff_getElem]
  simp only [getElem_ring]
  constructor
  · intro links i le
    exact links i (by simp; omega)
  · intro links i below
    exact links i (by simp at below; omega)

theorem ringNode_mem (i : Nat) : ringNode s es i ∈ s :: es := by
  rcases Nat.lt_or_ge i (s :: es).length with low | high
  · rw [ringNode, List.getD_eq_getElem _ _ low]
    exact List.getElem_mem low
  · rw [ringNode, List.getD_eq_default _ _ high]
    exact List.mem_cons_self

theorem getLastD_mem (as : List ν) : as.getLastD s ∈ s :: as := by
  cases as using List.reverseRecOn with
  | nil => simp
  | append_singleton as a => simp

theorem headD_mem (bs : List ν) : bs.headD s ∈ s :: bs := by
  cases bs <;> simp

/-- A chain is a chain for another relation that keeps its links. -/
theorem isChain_of_agree {l : List ν} (chain : l.IsChain R)
    (agree : ∀ a ∈ l.dropLast, ∀ b ∈ l.tail, R a b → R' a b) : l.IsChain R' := by
  induction l with
  | nil => exact .nil
  | cons x l ih =>
    cases l with
    | nil => exact .singleton _
    | cons y l =>
      obtain ⟨first, rest⟩ := List.isChain_cons_cons.mp chain
      apply List.isChain_cons_cons.mpr
      refine ⟨agree x (by simp) y (by simp) first, ih rest fun a ha b hb => ?_⟩
      apply agree a _ b _
      · simp [List.dropLast_cons_of_ne_nil, ha]
      · exact List.mem_cons_of_mem _ hb

theorem ring_append :
    Ring R s (as ++ bs) ↔
      (s :: as).IsChain R ∧ (bs ++ [s]).IsChain R ∧ R (as.getLastD s) (bs.headD s) := by
  have whole : s :: (as ++ bs) ++ [s] = (s :: as) ++ (bs ++ [s]) := by simp
  have last : ∀ x, x ∈ (s :: as).getLast? ↔ as.getLastD s = x := by
    intro x
    cases as using List.reverseRecOn with
    | nil => simp
    | append_singleton as a => simp [List.getLast?_cons]
  have head : ∀ y, y ∈ (bs ++ [s]).head? ↔ bs.headD s = y := by
    intro y
    cases bs <;> simp
  rw [Ring, whole, List.isChain_append]
  simp only [last, head, forall_eq']

section Distinct

variable (agree : ∀ a ∈ s :: as ++ bs, ∀ b ∈ s :: as ++ bs, a ≠ as.getLastD s → b ≠ bs.headD s →
  R a b → R' a b)
include agree

/-- Before the place that changes, all links stay. -/
theorem isChain_before (distinct : (s :: as ++ bs).Nodup) (chain : (s :: as).IsChain R) :
    (s :: as).IsChain R' := by
  apply isChain_of_agree chain
  intro a ha b hb link
  have inside : ∀ x ∈ s :: as, x ∈ s :: as ++ bs := fun x hx => List.mem_append_left _ hx
  have mem : a ∈ s :: as := List.dropLast_subset _ ha
  refine agree a (inside a mem) b (inside b (List.mem_cons_of_mem _ hb)) ?_ ?_ link
  · intro same
    have nodup : (s :: as).Nodup := (List.nodup_append.mp distinct).1
    have split : s :: as = (s :: as).dropLast ++ [as.getLastD s] := by
      have := List.dropLast_append_getLast (List.cons_ne_nil s as)
      rw [List.getLast_eq_getLastD] at this
      exact this.symm
    rw [split, List.nodup_append] at nodup
    exact nodup.2.2 a ha _ (by simp) same
  · intro same
    cases bs with
    | nil =>
      subst same
      simp only [List.append_nil, List.nodup_cons] at distinct
      exact distinct.1 hb
    | cons y bs =>
      obtain ⟨-, -, apart⟩ := List.nodup_append.mp distinct
      exact apart b (List.mem_cons_of_mem _ hb) y (by simp) same

/-- After the place that changes, all links stay. -/
theorem isChain_after (distinct : (s :: as ++ bs).Nodup) (chain : (bs ++ [s]).IsChain R) :
    (bs ++ [s]).IsChain R' := by
  apply isChain_of_agree chain
  intro a ha b hb link
  rw [List.dropLast_concat] at ha
  obtain ⟨-, nodup, apart⟩ := List.nodup_append.mp distinct
  have memb : b ∈ s :: as ++ bs := by
    rcases List.mem_append.mp (List.mem_of_mem_tail hb) with h | h
    · exact List.mem_append_right _ h
    · simp [List.mem_singleton.mp h]
  refine agree a (List.mem_append_right _ ha) b memb ?_ ?_ link
  · intro same
    exact apart _ (getLastD_mem as) a ha same.symm
  · intro same
    cases bs with
    | nil => simp at ha
    | cons y bs =>
      simp only [List.cons_append, List.tail_cons, List.mem_append, List.mem_singleton] at hb
      simp only [List.headD_cons] at same
      rcases hb with h | h
      · subst same
        exact (List.nodup_cons.mp nodup).1 h
      · exact apart s (by simp) y (by simp) (h.symm.trans same)

/-- A new node `e`, linked in between `as` and `bs`. -/
theorem Ring.insert (distinct : (s :: as ++ bs).Nodup) (ring : Ring R s (as ++ bs))
    (before : R' (as.getLastD s) e) (after : R' e (bs.headD s)) : Ring R' s (as ++ e :: bs) := by
  obtain ⟨left, right, -⟩ := ring_append.mp ring
  apply ring_append.mpr
  refine ⟨isChain_before agree distinct left, ?_, before⟩
  have tail := isChain_after agree distinct right
  rw [List.cons_append, List.isChain_cons]
  refine ⟨fun y hy => ?_, tail⟩
  cases bs with
  | nil => simp at hy; subst hy; exact after
  | cons z bs => simp at hy; subst hy; exact after

/-- The node `e` between `as` and `bs`, taken out. -/
theorem Ring.remove (distinct : (s :: as ++ bs).Nodup) (ring : Ring R s (as ++ e :: bs))
    (skip : R' (as.getLastD s) (bs.headD s)) : Ring R' s (as ++ bs) := by
  obtain ⟨left, right, -⟩ := ring_append.mp ring
  apply ring_append.mpr
  refine ⟨isChain_before agree distinct left, isChain_after agree distinct ?_, skip⟩
  rw [List.cons_append, List.isChain_cons] at right
  exact right.2

end Distinct

end ArkRuntime
