import Mathlib.Data.List.Nodup

/-!
# Linked lists that end with null

`Path next start l stop`: following the pointers `next` from `start` one meets the nodes of `l` and then is at
`stop`; null is `none`. A doubly linked list is a path of the next pointers together with a path of the
previous pointers through the same nodes in reverse order, so each lemma about changed pointers serves both
directions.
-/

namespace ArkRuntime

variable {ν : Type*} {next next' : ν → Option ν} {start stop stop' middle : Option ν} {x y : ν} {l as bs : List ν}

def Path (next : ν → Option ν) : Option ν → List ν → Option ν → Prop
  | start, [], stop => start = stop
  | start, x :: l, stop => start = some x ∧ Path next (next x) l stop

namespace Path

theorem append_iff :
    Path next start (as ++ bs) stop ↔ ∃ middle, Path next start as middle ∧ Path next middle bs stop := by
  induction as generalizing start with
  | nil => exact ⟨fun path => ⟨start, rfl, path⟩, fun ⟨_, same, path⟩ => same ▸ path⟩
  | cons x as ih =>
    constructor
    · rintro ⟨first, path⟩
      obtain ⟨middle, front, back⟩ := ih.mp path
      exact ⟨middle, ⟨first, front⟩, back⟩
    · rintro ⟨middle, ⟨first, front⟩, back⟩
      exact ⟨first, ih.mpr ⟨middle, front, back⟩⟩

/-- Pointers outside of the path do not matter. -/
theorem congr (agree : ∀ x ∈ l, next' x = next x) (path : Path next start l stop) :
    Path next' start l stop := by
  induction l generalizing start with
  | nil => exact path
  | cons x l ih =>
    refine ⟨path.1, ?_⟩
    rw [agree x List.mem_cons_self]
    exact ih (fun y mem => agree y (List.mem_cons_of_mem x mem)) path.2

theorem start_of_nil (path : Path next start [] stop) : start = stop := path

/-- The start of a path that ends with null is its first node. -/
theorem start_eq_head? (path : Path next start l none) : start = l.head? := by
  cases l with
  | nil => exact path
  | cons x l => exact path.1

/-- The pointer of a node on a path. -/
theorem next_eq (path : Path next start (as ++ x :: bs) stop) : Path next (next x) bs stop := by
  obtain ⟨_, _, _, back⟩ := append_iff.mp path
  exact back

theorem nil_of_none (path : Path next none l stop) : l = [] := by
  cases l with
  | nil => rfl
  | cons x l => exact absurd path.1 (by simp)

/-- A path from a set of nodes that no pointer leaves stays in the set. -/
theorem mem_of_closed {P : ν → Prop} (closed : ∀ x y, P x → next x = some y → P y)
    (first : ∀ y, start = some y → P y) (path : Path next start l stop) : ∀ x ∈ l, P x := by
  induction l generalizing start with
  | nil => exact fun x mem => absurd mem List.not_mem_nil
  | cons x l ih =>
    obtain ⟨rfl, rest⟩ := path
    have here := first x rfl
    intro y mem
    rcases List.mem_cons.mp mem with rfl | mem
    · exact here
    · exact ih (fun z is => closed x z here is) rest y mem

/-- There is one path from a node to null. -/
theorem unique (path : Path next start as none) (path' : Path next start bs none) : as = bs := by
  induction as generalizing start bs with
  | nil =>
    cases (show start = none from path)
    exact (nil_of_none path').symm
  | cons x as ih =>
    cases bs with
    | nil =>
      cases (show start = none from path')
      exact absurd path.1 (by simp)
    | cons y bs =>
      obtain ⟨first, rest⟩ := path
      obtain ⟨first', rest'⟩ := path'
      rw [first] at first'
      cases first'
      rw [ih rest rest']

variable [DecidableEq ν]

/-- The pointer of the last node is changed. -/
theorem update_last (path : Path next start (as ++ [y]) stop) (fresh : y ∉ as) (stop' : Option ν) :
    Path (Function.update next y stop') start (as ++ [y]) stop' := by
  obtain ⟨middle, front, last, _⟩ := append_iff.mp path
  refine append_iff.mpr ⟨middle, front.congr ?_, last, ?_⟩
  · intro x mem
    exact Function.update_of_ne (fun same : x = y => fresh (same ▸ mem)) _ _
  · exact Function.update_self y stop' next

/-- A new node before the others. -/
theorem cons (path : Path next start l stop) (agree : ∀ y ∈ l, next' y = next y) (here : next' x = start) :
    Path next' (some x) (x :: l) stop := by
  refine ⟨rfl, ?_⟩
  rw [here]
  exact path.congr agree

/-- A new node behind the others: their last one points to it. -/
theorem concat (path : Path next start l none) (distinct : l.Nodup) (fresh : x ∉ l)
    (last : ∀ y, l.getLast? = some y → next' y = some x)
    (agree : ∀ y ∈ l, l.getLast? ≠ some y → next' y = next y) (here : next' x = none) :
    Path next' (if l = [] then some x else start) (l ++ [x]) none := by
  rcases List.eq_nil_or_concat' l with rfl | ⟨as, y, rfl⟩
  · exact ⟨rfl, here⟩
  · rw [if_neg (by simp)]
    have apart : y ∉ as := by
      intro mem
      exact (List.nodup_append.mp distinct).2.2 y mem y (by simp) rfl
    have changed := path.update_last apart (some x)
    refine append_iff.mpr ⟨some x, changed.congr ?_, rfl, here⟩
    intro z mem
    by_cases is : z = y
    · subst is
      rw [last z (by simp), Function.update_self]
    · rw [agree z mem (by simpa using fun same => is same.symm), Function.update_of_ne is]

/-- A node is taken out: the one before it points to the one behind it. -/
theorem remove (path : Path next start (as ++ x :: bs) stop) (distinct : (as ++ x :: bs).Nodup)
    (last : ∀ y, as.getLast? = some y → next' y = next x)
    (agree : ∀ y ∈ as ++ bs, as.getLast? ≠ some y → next' y = next y) :
    Path next' (if as = [] then next x else start) (as ++ bs) stop := by
  obtain ⟨middle, front, _, back⟩ := append_iff.mp path
  have apart := (List.nodup_append.mp distinct).2.2
  have behind : Path next' (next x) bs stop := by
    refine back.congr fun y mem => agree y (List.mem_append_right as mem) ?_
    intro is
    exact apart y (List.mem_of_getLast? is) y (List.mem_cons_of_mem x mem) rfl
  rcases List.eq_nil_or_concat' as with rfl | ⟨as, z, rfl⟩
  · exact behind
  · rw [if_neg (by simp)]
    have fresh : z ∉ as := by
      intro mem
      exact (List.nodup_append.mp (List.nodup_append.mp distinct).1).2.2 z mem z (by simp) rfl
    refine append_iff.mpr ⟨next x, (front.update_last fresh (next x)).congr ?_, behind⟩
    intro y mem
    by_cases is : y = z
    · subst is
      rw [last y (by simp), Function.update_self]
    · rw [agree y (List.mem_append_left bs mem) (by simpa using fun same => is same.symm),
        Function.update_of_ne is]

end Path

/-- The doubly linked list of the nodes of `l`. -/
structure DoublyLinked (next prev : ν → Option ν) (head last : Option ν) (l : List ν) : Prop where
  forward : Path next head l none
  backward : Path prev last l.reverse none
  distinct : l.Nodup

namespace DoublyLinked

variable {prev prev' : ν → Option ν} {head last : Option ν}

theorem congr (linked : DoublyLinked next prev head last l) (nexts : ∀ x ∈ l, next' x = next x)
    (prevs : ∀ x ∈ l, prev' x = prev x) : DoublyLinked next' prev' head last l where
  forward := linked.forward.congr nexts
  backward := linked.backward.congr fun x mem => prevs x (List.mem_reverse.mp mem)
  distinct := linked.distinct

theorem head_eq (linked : DoublyLinked next prev head last l) : head = l.head? := linked.forward.start_eq_head?

theorem last_eq (linked : DoublyLinked next prev head last l) : last = l.getLast? := by
  rw [linked.backward.start_eq_head?, List.head?_reverse]

theorem nil : DoublyLinked next prev none none [] := ⟨rfl, rfl, List.nodup_nil⟩

theorem next_eq (linked : DoublyLinked next prev head last (as ++ x :: bs)) : next x = bs.head? :=
  linked.forward.next_eq.start_eq_head?

theorem prev_eq (linked : DoublyLinked next prev head last (as ++ x :: bs)) : prev x = as.getLast? := by
  have split : (as ++ x :: bs).reverse = bs.reverse ++ x :: as.reverse := by simp
  have back := linked.backward
  rw [split] at back
  rw [back.next_eq.start_eq_head?, List.head?_reverse]

variable [DecidableEq ν]

/-- A node is linked in before the others. -/
theorem pushFront (linked : DoublyLinked next prev head last l) (fresh : x ∉ l)
    (here : next' x = head) (here' : prev' x = none) (nexts : ∀ y ∈ l, next' y = next y)
    (first : ∀ y, head = some y → prev' y = some x)
    (prevs : ∀ y ∈ l, head ≠ some y → prev' y = prev y) :
    DoublyLinked next' prev' (some x) (if l = [] then some x else last) (x :: l) where
  forward := linked.forward.cons nexts here
  backward := by
    have head_eq := linked.head_eq
    have back : Path prev' (if l.reverse = [] then some x else last) (l.reverse ++ [x]) none :=
      linked.backward.concat (List.nodup_reverse.mpr linked.distinct)
      (fun mem => fresh (List.mem_reverse.mp mem))
      (fun y is => first y (by rw [head_eq, ← is, List.getLast?_reverse]))
      (fun y mem other => prevs y (List.mem_reverse.mp mem) (by rwa [head_eq, ← List.getLast?_reverse]))
      here'
    rw [List.reverse_cons]
    simpa only [List.reverse_eq_nil_iff] using back
  distinct := List.nodup_cons.mpr ⟨fresh, linked.distinct⟩

/-- A node is taken out. -/
theorem remove (linked : DoublyLinked next prev head last (as ++ x :: bs))
    (before : ∀ y, as.getLast? = some y → next' y = next x)
    (nexts : ∀ y ∈ as ++ bs, as.getLast? ≠ some y → next' y = next y)
    (behind : ∀ y, bs.head? = some y → prev' y = prev x)
    (prevs : ∀ y ∈ as ++ bs, bs.head? ≠ some y → prev' y = prev y) :
    DoublyLinked next' prev' (if as = [] then next x else head) (if bs = [] then prev x else last)
      (as ++ bs) where
  forward := linked.forward.remove linked.distinct before nexts
  backward := by
    have split : (as ++ x :: bs).reverse = bs.reverse ++ x :: as.reverse := by simp
    have back := linked.backward
    have distinct := List.nodup_reverse.mpr linked.distinct
    rw [split] at back distinct
    have removed : Path prev' (if bs.reverse = [] then prev x else last) (bs.reverse ++ as.reverse) none :=
      back.remove distinct
      (fun y is => behind y (by rw [← is, List.getLast?_reverse]))
      (fun y mem other => prevs y (by simpa [or_comm] using mem) (by rwa [← List.getLast?_reverse]))
    rw [List.reverse_append]
    simpa only [List.reverse_eq_nil_iff] using removed
  distinct := by
    have distinct := linked.distinct
    rw [List.nodup_append] at distinct ⊢
    refine ⟨distinct.1, (List.nodup_cons.mp distinct.2.1).2, ?_⟩
    intro y first z second
    exact distinct.2.2 y first z (List.mem_cons_of_mem x second)

end DoublyLinked

end ArkRuntime
