import ArkRuntime.FreeList.Sets
import Mathlib.Algebra.Order.BigOperators.Group.Finset

/-!
# The lists of sets

What `AddSet` and `RemoveSet` do to the sets of a list: `chains t` are the sets of the type `t`, linked in both
directions. The available size of the list is the sum over its sets, apart from a difference `slack` that there
is between the steps of an operation.
-/

namespace ArkRuntime

namespace FreeList

variable {ρ : Type}

/-- The available sizes of sets in sum. -/
def setSizes (mem : Memory ρ) (l : List (SetId ρ)) : Nat := (l.map fun s => (mem.sets s).available).sum

def totalSize (mem : Memory ρ) (chains : Nat → List (SetId ρ)) : Nat :=
  ∑ t ∈ Finset.range numberOfSets, setSizes mem (chains t)

/-- The list has the sets `chains`, all from the regions `R`. -/
structure ListOk (R : Set ρ) (st : State ρ) (chains : Nat → List (SetId ρ)) (slack : Int) : Prop where
  linked : ∀ t, DoublyLinked (fun s => (st.mem.sets s).next) (fun s => (st.mem.sets s).prev)
    (st.list.sets t) (st.list.lastSets t) (chains t)
  typed : ∀ t, ∀ s ∈ chains t, s.2 = t ∧ s.1 ∈ R
  bound : ∀ t, numberOfSets ≤ t → chains t = []
  added : ∀ s, s.1 ∈ R → ((st.mem.sets s).isAdded = true ↔ s ∈ chains s.2)
  bitmap : ∀ t, st.list.noneEmptySetBitMap.getLsbD t = true ↔ st.list.sets t ≠ none
  available : (st.list.available : Int) = totalSize st.mem chains + slack

variable {R : Set ρ} {st st' : State ρ} {mem mem' : Memory ρ} {chains : Nat → List (SetId ρ)} {slack : Int}
  {s : SetId ρ}

/-! ## Sums -/

variable {t : Nat} {l as bs : List (SetId ρ)}

theorem setSizes_congr (agree : ∀ s ∈ l, (mem'.sets s).available = (mem.sets s).available) :
    setSizes mem' l = setSizes mem l := by
  rw [setSizes, setSizes, List.map_congr_left agree]

/-- The available size of one set has changed. -/
theorem setSizes_change (distinct : l.Nodup) (listed : s ∈ l)
    (agree : ∀ s', s' ≠ s → (mem'.sets s').available = (mem.sets s').available) :
    setSizes mem' l + (mem.sets s).available = setSizes mem l + (mem'.sets s).available := by
  induction l with
  | nil => exact absurd listed List.not_mem_nil
  | cons x l ih =>
    obtain ⟨fresh, rest⟩ := List.nodup_cons.mp distinct
    simp only [setSizes, List.map_cons, List.sum_cons]
    rcases List.mem_cons.mp listed with rfl | inside
    · have same : setSizes mem' l = setSizes mem l :=
        setSizes_congr fun y mem => agree y fun is => fresh (is ▸ mem)
      simp only [setSizes] at same
      omega
    · have other : x ≠ s := fun is => fresh (is ▸ inside)
      have sum := ih rest inside
      simp only [setSizes] at sum
      rw [agree x other]
      omega

/-- The sets of one type have changed. -/
theorem sum_change {f g : Nat → Nat} {n : Nat} (below : t < n) (agree : ∀ i, i ≠ t → g i = f i) :
    (∑ i ∈ Finset.range n, g i) + f t = (∑ i ∈ Finset.range n, f i) + g t := by
  have inside : t ∈ Finset.range n := Finset.mem_range.mpr below
  have rest : ∑ i ∈ (Finset.range n).erase t, g i = ∑ i ∈ (Finset.range n).erase t, f i :=
    Finset.sum_congr rfl fun i mem => agree i (Finset.ne_of_mem_erase mem)
  rw [← Finset.add_sum_erase _ g inside, ← Finset.add_sum_erase _ f inside, rest]
  omega

namespace ListOk

theorem type_lt (ok : ListOk R st chains slack) {t : Nat} (listed : s ∈ chains t) : t < numberOfSets := by
  by_contra far
  rw [ok.bound t (by omega)] at listed
  exact absurd listed List.not_mem_nil

theorem listed_of (ok : ListOk R st chains slack) {t : Nat} (listed : s ∈ chains t) : s ∈ chains s.2 := by
  rwa [(ok.typed t s listed).1]

/-- Only the available size of one set of the list has changed. -/
theorem resize (ok : ListOk R st chains slack) (listed : s ∈ chains s.2)
    (lists : st'.list = st.list) (others : ∀ s', s' ≠ s → st'.mem.sets s' = st.mem.sets s')
    (next : (st'.mem.sets s).next = (st.mem.sets s).next) (prev : (st'.mem.sets s).prev = (st.mem.sets s).prev)
    (isAdded : (st'.mem.sets s).isAdded = (st.mem.sets s).isAdded) :
    ListOk R st' chains (slack + (st.mem.sets s).available - (st'.mem.sets s).available) := by
  have kept : ∀ s', (st'.mem.sets s').next = (st.mem.sets s').next ∧
      (st'.mem.sets s').prev = (st.mem.sets s').prev ∧
      (st'.mem.sets s').isAdded = (st.mem.sets s').isAdded := by
    intro s'
    by_cases same : s' = s
    · subst same
      exact ⟨next, prev, isAdded⟩
    · rw [others s' same]
      exact ⟨rfl, rfl, rfl⟩
  refine ⟨?_, ok.typed, ok.bound, ?_, ?_, ?_⟩
  · intro t
    rw [lists]
    exact (ok.linked t).congr (fun x _ => (kept x).1) (fun x _ => (kept x).2.1)
  · intro s' region
    rw [(kept s').2.2]
    exact ok.added s' region
  · rw [lists]
    exact ok.bitmap
  · have agree : ∀ s', s' ≠ s → (st'.mem.sets s').available = (st.mem.sets s').available :=
      fun s' other => by rw [others s' other]
    have here := setSizes_change (ok.linked s.2).distinct listed agree
    have sums := sum_change (f := fun t => setSizes st.mem (chains t))
      (g := fun t => setSizes st'.mem (chains t)) (ok.type_lt listed) (fun t other => by
        apply setSizes_congr
        intro x mem
        refine agree x fun is => other ?_
        rw [← (ok.typed t x mem).1, is])
    have total := ok.available
    rw [lists, total]
    simp only [totalSize] at *
    omega

/-- Nothing that the list is about has changed. -/
theorem congr (ok : ListOk R st chains slack) (lists : st'.list = st.list)
    (kept : ∀ t, ∀ s ∈ chains t, (st'.mem.sets s).next = (st.mem.sets s).next ∧
      (st'.mem.sets s).prev = (st.mem.sets s).prev ∧
      (st'.mem.sets s).available = (st.mem.sets s).available)
    (isAdded : ∀ s, s.1 ∈ R → (st'.mem.sets s).isAdded = (st.mem.sets s).isAdded) :
    ListOk R st' chains slack := by
  refine ⟨?_, ok.typed, ok.bound, ?_, ?_, ?_⟩
  · intro t
    rw [lists]
    exact (ok.linked t).congr (fun x mem => (kept t x mem).1) (fun x mem => (kept t x mem).2.1)
  · intro s' region
    rw [isAdded s' region]
    exact ok.added s' region
  · rw [lists]
    exact ok.bitmap
  · have same : totalSize st'.mem chains = totalSize st.mem chains :=
      Finset.sum_congr rfl fun t _ => setSizes_congr fun x mem => (kept t x mem).2.2
    rw [lists, ok.available, same]

/-- The available size of the list is changed. -/
theorem setAvailable (ok : ListOk R st chains slack) {available : Nat} {slack' : Int}
    (difference : (available : Int) - slack' = st.list.available - slack) :
    ListOk R ⟨st.mem, { st.list with available }⟩ chains slack' := by
  refine ⟨ok.linked, ok.typed, ok.bound, ok.added, ok.bitmap, ?_⟩
  have total := ok.available
  simp only
  omega

end ListOk

/-! ## The bitmap -/

theorem getLsbD_setBit (bitmap : BitVec 64) (below : t < 64) (i : Nat) :
    (bitmap ||| (1#64 <<< t)).getLsbD i = true ↔ i = t ∨ bitmap.getLsbD i = true := by
  rw [BitVec.getLsbD_or, BitVec.getLsbD_shiftLeft, BitVec.getLsbD_one]
  by_cases same : i = t
  · subst same
    simp [below]
  · have other : ¬ (i < 64 ∧ ¬ i < t ∧ i - t = 0) := by omega
    simp only [Bool.or_eq_true, Bool.and_eq_true, decide_eq_true_eq, same, false_or]
    constructor
    · rintro (here | ⟨⟨less, ge⟩, _, zero⟩)
      · exact here
      · exact absurd ⟨less, by simpa using ge, zero⟩ other
    · exact .inl

theorem getLsbD_clearBit (bitmap : BitVec 64) (t i : Nat) :
    (bitmap &&& ~~~(1#64 <<< t)).getLsbD i = true ↔ i ≠ t ∧ bitmap.getLsbD i = true := by
  rw [BitVec.getLsbD_and, BitVec.getLsbD_not, BitVec.getLsbD_shiftLeft, BitVec.getLsbD_one]
  by_cases inside : i < 64
  · by_cases same : i = t
    · subst same
      simp [inside]
    · have apart : i < t ∨ i - t ≠ 0 := by omega
      rcases apart with less | more
      · simp [inside, less, same]
      · simp [inside, same, more]
  · have out : bitmap.getLsbD i = false := BitVec.getLsbD_of_ge bitmap i (by omega)
    simp [out]

/-! ## Adding a set -/

variable [DecidableEq ρ]

/-- The objects of the sets are not touched. -/
structure SameObjects (mem mem' : Memory ρ) : Prop where
  objects : mem'.objects = mem.objects
  freeObject : ∀ s, (mem'.sets s).freeObject = (mem.sets s).freeObject
  available : ∀ s, (mem'.sets s).available = (mem.sets s).available

omit [DecidableEq ρ] in
theorem SameObjects.setsOk {objs : SetId ρ → List Nat} (same : SameObjects mem mem') (ok : SetsOk R mem objs) :
    SetsOk R mem' objs :=
  ok.congr same.objects (fun s _ => same.freeObject s) (fun s _ => same.available s)

theorem linkNext_spec (mem : Memory ρ) (p next : Option (SetId ρ)) :
    SameObjects mem (mem.linkNext p next) ∧
      ∀ x, ((mem.linkNext p next).sets x).isAdded = (mem.sets x).isAdded ∧
        ((mem.linkNext p next).sets x).prev = (mem.sets x).prev ∧
        ((mem.linkNext p next).sets x).next = if p = some x then next else (mem.sets x).next := by
  cases p with
  | none => exact ⟨⟨rfl, fun _ => rfl, fun _ => rfl⟩, fun _ => ⟨rfl, rfl, by simp [Memory.linkNext]⟩⟩
  | some y =>
    refine ⟨⟨rfl, fun x => ?_, fun x => ?_⟩, fun x => ?_⟩
    · by_cases is : x = y <;> simp [Memory.linkNext, Memory.setNext, Memory.setSet_sets, is]
    · by_cases is : x = y <;> simp [Memory.linkNext, Memory.setNext, Memory.setSet_sets, is]
    · by_cases is : x = y
      · simp [Memory.linkNext, Memory.setNext, is]
      · have no : ¬ y = x := fun same => is same.symm
        simp [Memory.linkNext, Memory.setNext, Memory.setSet_of_ne _ is, no]

theorem linkPrev_spec (mem : Memory ρ) (p prev : Option (SetId ρ)) :
    SameObjects mem (mem.linkPrev p prev) ∧
      ∀ x, ((mem.linkPrev p prev).sets x).isAdded = (mem.sets x).isAdded ∧
        ((mem.linkPrev p prev).sets x).next = (mem.sets x).next ∧
        ((mem.linkPrev p prev).sets x).prev = if p = some x then prev else (mem.sets x).prev := by
  cases p with
  | none => exact ⟨⟨rfl, fun _ => rfl, fun _ => rfl⟩, fun _ => ⟨rfl, rfl, by simp [Memory.linkPrev]⟩⟩
  | some y =>
    refine ⟨⟨rfl, fun x => ?_, fun x => ?_⟩, fun x => ?_⟩
    · by_cases is : x = y <;> simp [Memory.linkPrev, Memory.setPrev, Memory.setSet_sets, is]
    · by_cases is : x = y <;> simp [Memory.linkPrev, Memory.setPrev, Memory.setSet_sets, is]
    · by_cases is : x = y
      · simp [Memory.linkPrev, Memory.setPrev, is]
      · have no : ¬ y = x := fun same => is same.symm
        simp [Memory.linkPrev, Memory.setPrev, Memory.setSet_of_ne _ is, no]

/-- The sets of one type and their pointers are changed, and the available size by what the sets have. -/
theorem ListOk.change (ok : ListOk R st chains slack) (type : t < numberOfSets)
    (typed : ∀ s ∈ l, s.2 = t ∧ s.1 ∈ R) (sizes : ∀ s, (st'.mem.sets s).available = (st.mem.sets s).available)
    (linked : DoublyLinked (fun s => (st'.mem.sets s).next) (fun s => (st'.mem.sets s).prev)
      (st'.list.sets t) (st'.list.lastSets t) l)
    (others : ∀ t', t' ≠ t → st'.list.sets t' = st.list.sets t' ∧ st'.list.lastSets t' = st.list.lastSets t')
    (pointers : ∀ s, s.2 ≠ t → (st'.mem.sets s).next = (st.mem.sets s).next ∧
      (st'.mem.sets s).prev = (st.mem.sets s).prev)
    (added : ∀ s, s.1 ∈ R → ((st'.mem.sets s).isAdded = true ↔ if s.2 = t then s ∈ l else s ∈ chains s.2))
    (bit : ∀ t', st'.list.noneEmptySetBitMap.getLsbD t' = true ↔
      if t' = t then l ≠ [] else st.list.noneEmptySetBitMap.getLsbD t' = true)
    (available : (st'.list.available : Int) = st.list.available + setSizes st.mem l - setSizes st.mem (chains t)) :
    ListOk R st' (Function.update chains t l) slack := by
  refine ⟨?_, ?_, ?_, ?_, ?_, ?_⟩
  · intro t'
    by_cases same : t' = t
    · subst same
      rwa [Function.update_self]
    · rw [Function.update_of_ne same, (others t' same).1, (others t' same).2]
      refine (ok.linked t').congr (fun x mem => (pointers x ?_).1) (fun x mem => (pointers x ?_).2)
      · rwa [(ok.typed t' x mem).1]
      · rwa [(ok.typed t' x mem).1]
  · intro t' x mem
    by_cases same : t' = t
    · subst same
      rw [Function.update_self] at mem
      exact typed x mem
    · rw [Function.update_of_ne same] at mem
      exact ok.typed t' x mem
  · intro t' far
    rw [Function.update_of_ne (by omega)]
    exact ok.bound t' far
  · intro x region
    rw [added x region]
    by_cases same : x.2 = t
    · rw [if_pos same, same, Function.update_self]
    · rw [if_neg same, Function.update_of_ne same]
  · intro t'
    rw [bit t']
    by_cases same : t' = t
    · subst same
      rw [if_pos rfl, linked.head_eq]
      simp
    · rw [if_neg same, (others t' same).1]
      exact ok.bitmap t'
  · have total := ok.available
    have kept : totalSize st'.mem (Function.update chains t l) =
        totalSize st.mem (Function.update chains t l) :=
      Finset.sum_congr rfl fun t' _ => setSizes_congr fun x _ => sizes x
    have sums := sum_change (f := fun t => setSizes st.mem (chains t))
      (g := fun t' => setSizes st.mem (Function.update chains t l t')) type
      (fun t' other => by rw [Function.update_of_ne other])
    rw [kept, available, total]
    simp only [Function.update_self] at sums
    simp only [totalSize]
    omega

/-- The pointers and flags once a set is linked in. -/
theorem addSet_mem (st : State ρ) (nonempty : (st.mem.sets s).available ≠ 0)
    (notAdded : (st.mem.sets s).isAdded = false) (other : st.list.sets s.2 ≠ some s) :
    SameObjects st.mem (st.addSet s).1.mem ∧ ((st.addSet s).1.mem.sets s).next = st.list.sets s.2 ∧
      ((st.addSet s).1.mem.sets s).prev = none ∧ ((st.addSet s).1.mem.sets s).isAdded = true ∧
      ∀ x, x ≠ s → ((st.addSet s).1.mem.sets x).next = (st.mem.sets x).next ∧
        ((st.addSet s).1.mem.sets x).isAdded = (st.mem.sets x).isAdded ∧
        ((st.addSet s).1.mem.sets x).prev =
          if st.list.sets s.2 = some x then some s else (st.mem.sets x).prev := by
  simp only [State.addSet, nonempty, notAdded, other, false_or, Bool.false_eq_true, if_false]
  obtain ⟨same, links⟩ := linkPrev_spec st.mem (st.list.sets s.2) (some s)
  refine ⟨⟨same.objects, fun x => ?_, fun x => ?_⟩, ?_, ?_, ?_, ?_⟩
  · rw [← same.freeObject x]
    by_cases is : x = s <;> simp [Memory.setSet_sets, is]
  · rw [← same.available x]
    by_cases is : x = s <;> simp [Memory.setSet_sets, is]
  · simp
  · simp
  · simp
  · intro x different
    rw [Memory.setSet_of_ne _ different]
    exact ⟨(links x).2.1, (links x).1, (links x).2.2⟩

/-- The ends of the chains, the bitmap and the size once a set is linked in before those of `l`. -/
theorem addSet_list (st : State ρ) (nonempty : (st.mem.sets s).available ≠ 0)
    (notAdded : (st.mem.sets s).isAdded = false) (other : st.list.sets s.2 ≠ some s)
    (head : st.list.sets s.2 = l.head?) (last : st.list.lastSets s.2 = l.getLast?) :
    (st.addSet s).1.list.sets = Function.update st.list.sets s.2 (some s) ∧
      (st.addSet s).1.list.lastSets =
        Function.update st.list.lastSets s.2 (if l = [] then some s else st.list.lastSets s.2) ∧
      (st.addSet s).1.list.noneEmptySetBitMap =
        (if l = [] then st.list.noneEmptySetBitMap ||| (1#64 <<< s.2) else st.list.noneEmptySetBitMap) ∧
      (st.addSet s).1.list.available = st.list.available + (st.mem.sets s).available := by
  have emptyLast : st.list.lastSets s.2 = none ↔ l = [] := by rw [last, List.getLast?_eq_none_iff]
  have emptyHead : st.list.sets s.2 = none ↔ l = [] := by rw [head, List.head?_eq_none_iff]
  have size := (linkPrev_spec st.mem (st.list.sets s.2) (some s)).1.available s
  simp only [State.addSet, nonempty, notAdded, other, false_or, Bool.false_eq_true, if_false,
    Memory.setSet_self, size]
  by_cases empty : l = []
  · simp [emptyLast.mpr empty, emptyHead.mpr empty, empty, FreeObjectList.setNoneEmptyBit]
  · have noLast : ¬ st.list.lastSets s.2 = none := fun is => empty (emptyLast.mp is)
    have noHead : ¬ st.list.sets s.2 = none := fun is => empty (emptyHead.mp is)
    simp [noLast, noHead, empty]

omit [DecidableEq ρ] in
/-- The bit of a type whose first set is linked in. -/
theorem ListOk.bit_added (ok : ListOk R st chains slack) (type : s.2 < numberOfSets) (t : Nat) :
    BitVec.getLsbD (if chains s.2 = [] then st.list.noneEmptySetBitMap ||| (1#64 <<< s.2)
        else st.list.noneEmptySetBitMap) t = true ↔
      if t = s.2 then s :: chains s.2 ≠ [] else st.list.noneEmptySetBitMap.getLsbD t = true := by
  by_cases empty : chains s.2 = []
  · rw [if_pos empty, getLsbD_setBit _ (by simp [numberOfSets] at type; omega)]
    by_cases here : t = s.2
    · simp [here]
    · simp [here]
  · rw [if_neg empty]
    by_cases here : t = s.2
    · subst here
      rw [if_pos rfl, ok.bitmap, (ok.linked s.2).head_eq]
      simp [empty]
    · rw [if_neg here]

/-- The list once a set is linked in before the others of its type. -/
theorem addSet_ok (ok : ListOk R st chains slack) (region : s.1 ∈ R) (type : s.2 < numberOfSets)
    (absent : s ∉ chains s.2) (nonempty : (st.mem.sets s).available ≠ 0) :
    ListOk R (st.addSet s).1 (Function.update chains s.2 (s :: chains s.2)) slack ∧
      SameObjects st.mem (st.addSet s).1.mem := by
  have linked := ok.linked s.2
  have head := linked.head_eq
  have notAdded : (st.mem.sets s).isAdded = false := by
    rw [← Bool.not_eq_true, ok.added s region]
    exact absent
  have other : st.list.sets s.2 ≠ some s := by
    rw [head]
    exact fun is => absent (List.mem_of_head? is)
  obtain ⟨same, next, prev, isAdded, rest⟩ := addSet_mem st nonempty notAdded other
  obtain ⟨heads, lasts, bitmap, size⟩ := addSet_list st nonempty notAdded other head linked.last_eq
  refine ⟨?_, same⟩
  apply ok.change type
  · intro x mem
    rcases List.mem_cons.mp mem with rfl | mem
    · exact ⟨rfl, region⟩
    · exact ok.typed s.2 x mem
  · exact same.available
  · rw [heads, lasts, Function.update_self, Function.update_self]
    have apart : ∀ y ∈ chains s.2, y ≠ s := fun y mem is => absent (is ▸ mem)
    refine linked.pushFront absent next prev (fun y mem => (rest y (apart y mem)).1) ?_ ?_
    · intro y is
      have listed : y ∈ chains s.2 := by
        rw [head] at is
        exact List.mem_of_head? is
      rw [(rest y (apart y listed)).2.2, if_pos is]
    · intro y mem no
      rw [(rest y (apart y mem)).2.2, if_neg no]
  · intro t' different
    rw [heads, lasts, Function.update_of_ne different, Function.update_of_ne different]
    exact ⟨rfl, rfl⟩
  · intro x different
    have apart : x ≠ s := fun is => different (by rw [is])
    have no : st.list.sets s.2 ≠ some x := by
      rw [head]
      exact fun is => different (ok.typed s.2 x (List.mem_of_head? is)).1
    refine ⟨(rest x apart).1, ?_⟩
    rw [(rest x apart).2.2, if_neg no]
  · intro x region'
    by_cases is : x = s
    · subst is
      simp [isAdded]
    · rw [(rest x is).2.1, ok.added x region']
      by_cases type : x.2 = s.2
      · rw [if_pos type, List.mem_cons, type]
        simp [is]
      · rw [if_neg type]
  · intro t'
    rw [bitmap]
    exact ok.bit_added type t'
  · rw [size]
    simp only [setSizes, List.map_cons, List.sum_cons]
    omega

/-! ## Removing a set -/

omit [DecidableEq ρ] in
theorem setSizes_append (as bs : List (SetId ρ)) : setSizes mem (as ++ bs) = setSizes mem as + setSizes mem bs := by
  simp [setSizes]

omit [DecidableEq ρ] in
theorem ListOk.available_le (ok : ListOk R st chains slack) (nonneg : 0 ≤ slack) (listed : s ∈ chains s.2) :
    (st.mem.sets s).available ≤ st.list.available := by
  have part : setSizes st.mem (chains s.2) ≤ totalSize st.mem chains :=
    Finset.single_le_sum (f := fun t => setSizes st.mem (chains t)) (fun _ _ => Nat.zero_le _)
      (Finset.mem_range.mpr (ok.type_lt listed))
  have here : (st.mem.sets s).available ≤ setSizes st.mem (chains s.2) := by
    obtain ⟨as, bs, split⟩ := List.append_of_mem listed
    rw [split, setSizes_append]
    simp only [setSizes, List.map_cons, List.sum_cons]
    omega
  have total := ok.available
  omega

/-- The pointers and flags once the set `s` between `as` and `bs` is taken out. -/
theorem removeSet_mem (st : State ρ) (prev : (st.mem.sets s).prev = as.getLast?)
    (next : (st.mem.sets s).next = bs.head?) (distinct : (as ++ s :: bs).Nodup) :
    SameObjects st.mem (st.removeSet s).mem ∧ ((st.removeSet s).mem.sets s).isAdded = false ∧
      ∀ x, x ≠ s → ((st.removeSet s).mem.sets x).isAdded = (st.mem.sets x).isAdded ∧
        ((st.removeSet s).mem.sets x).next =
          (if as.getLast? = some x then bs.head? else (st.mem.sets x).next) ∧
        ((st.removeSet s).mem.sets x).prev =
          if bs.head? = some x then as.getLast? else (st.mem.sets x).prev := by
  have apart := (List.nodup_cons.mp (List.perm_middle.nodup_iff.mp distinct)).1
  have before : ∀ y, as.getLast? = some y → y ≠ s := by
    rintro y is rfl
    exact apart (List.mem_append_left _ (List.mem_of_getLast? is))
  obtain ⟨same1, rest1⟩ := linkNext_spec st.mem as.getLast? bs.head?
  have self1 : ((st.mem.linkNext as.getLast? bs.head?).sets s).next = bs.head? := by
    rw [(rest1 s).2.2, if_neg fun is => before s is rfl, next]
  obtain ⟨same2, rest2⟩ := linkPrev_spec (st.mem.linkNext as.getLast? bs.head?) bs.head? as.getLast?
  simp only [State.removeSet, prev, next, self1]
  refine ⟨⟨same2.objects.trans same1.objects, fun x => ?_, fun x => ?_⟩, ?_, fun x other => ?_⟩
  · rw [← same1.freeObject x, ← same2.freeObject x]
    by_cases is : x = s <;> simp [Memory.setSet_sets, is]
  · rw [← same1.available x, ← same2.available x]
    by_cases is : x = s <;> simp [Memory.setSet_sets, is]
  · simp
  · rw [Memory.setSet_of_ne _ other]
    refine ⟨(rest2 x).1.trans (rest1 x).1, (rest2 x).2.1.trans (rest1 x).2.2, ?_⟩
    rw [(rest2 x).2.2, (rest1 x).2.1]

/-- The ends of the chains, the bitmap and the size once the set `s` between `as` and `bs` is taken out. -/
theorem removeSet_list (st : State ρ) (prev : (st.mem.sets s).prev = as.getLast?)
    (next : (st.mem.sets s).next = bs.head?) (distinct : (as ++ s :: bs).Nodup)
    (head : st.list.sets s.2 = (as ++ s :: bs).head?) (last : st.list.lastSets s.2 = (as ++ s :: bs).getLast?) :
    (st.removeSet s).list.sets =
        Function.update st.list.sets s.2 (if as = [] then bs.head? else st.list.sets s.2) ∧
      (st.removeSet s).list.lastSets =
        Function.update st.list.lastSets s.2 (if bs = [] then as.getLast? else st.list.lastSets s.2) ∧
      (st.removeSet s).list.noneEmptySetBitMap =
        (if as ++ bs = [] then st.list.noneEmptySetBitMap &&& ~~~(1#64 <<< s.2)
          else st.list.noneEmptySetBitMap) ∧
      (st.removeSet s).list.available = st.list.available - (st.mem.sets s).available := by
  have apart := (List.nodup_cons.mp (List.perm_middle.nodup_iff.mp distinct)).1
  have isTop : st.list.sets s.2 = some s ↔ as = [] := by
    rw [head]
    cases as with
    | nil => simp
    | cons a as =>
      have other : a ≠ s := fun is => apart (by simp [is])
      simp [other]
  have isLast : st.list.lastSets s.2 = some s ↔ bs = [] := by
    rw [last]
    rcases List.eq_nil_or_concat' bs with rfl | ⟨bs, b, rfl⟩
    · simp
    · have other : b ≠ s := fun is => apart (by simp [is])
      rw [show as ++ s :: (bs ++ [b]) = (as ++ s :: bs) ++ [b] by simp, List.getLast?_concat]
      simp [other]
  have top : ¬ as = [] → ¬ st.list.sets s.2 = none := by
    intro some
    rw [head]
    simp
  have size := (removeSet_mem st prev next distinct).1.available s
  simp only [State.removeSet] at size ⊢
  rw [size, next, prev]
  by_cases first : as = []
  · subst first
    rw [if_pos (isTop.mpr rfl)]
    by_cases final : bs = []
    · subst final
      rw [if_pos (isLast.mpr rfl)]
      simp [FreeObjectList.clearNoneEmptyBit]
    · rw [if_neg fun is => final (isLast.mp is)]
      simp [final]
  · rw [if_neg fun is => first (isTop.mp is)]
    by_cases final : bs = []
    · subst final
      rw [if_pos (isLast.mpr rfl)]
      simp [first, top first]
    · rw [if_neg fun is => final (isLast.mp is)]
      simp [first, final, top first]

omit [DecidableEq ρ] in
/-- The bit of a type whose last set is taken out. -/
theorem ListOk.bit_removed (ok : ListOk R st chains slack) (split : chains s.2 = as ++ s :: bs) (t : Nat) :
    BitVec.getLsbD (if as ++ bs = [] then st.list.noneEmptySetBitMap &&& ~~~(1#64 <<< s.2)
        else st.list.noneEmptySetBitMap) t = true ↔
      if t = s.2 then as ++ bs ≠ [] else st.list.noneEmptySetBitMap.getLsbD t = true := by
  by_cases empty : as ++ bs = []
  · rw [if_pos empty, getLsbD_clearBit]
    by_cases here : t = s.2
    · simp [here, empty]
    · simp [here]
  · rw [if_neg empty]
    by_cases here : t = s.2
    · subst here
      rw [if_pos rfl, ok.bitmap, (ok.linked s.2).head_eq, split]
      simp [empty]
    · rw [if_neg here]

/-- The list once a set is taken out. -/
theorem removeSet_ok (ok : ListOk R st chains slack) (nonneg : 0 ≤ slack) (split : chains s.2 = as ++ s :: bs) :
    ListOk R (st.removeSet s) (Function.update chains s.2 (as ++ bs)) slack ∧
      SameObjects st.mem (st.removeSet s).mem ∧ ((st.removeSet s).mem.sets s).isAdded = false := by
  have within : (as ++ bs) ⊆ chains s.2 := by
    rw [split]
    intro y mem
    rcases List.mem_append.mp mem with front | back
    · exact List.mem_append_left _ front
    · exact List.mem_append_right _ (List.mem_cons_of_mem _ back)
  have listed : s ∈ chains s.2 := by
    rw [split]
    simp
  have linked := ok.linked s.2
  rw [split] at linked
  have next := linked.next_eq
  have prev := linked.prev_eq
  have apart := (List.nodup_cons.mp (List.perm_middle.nodup_iff.mp linked.distinct)).1
  have le := ok.available_le nonneg listed
  obtain ⟨same, removed, rest⟩ := removeSet_mem st prev next linked.distinct
  obtain ⟨heads, lasts, bitmap, size⟩ :=
    removeSet_list st prev next linked.distinct linked.head_eq linked.last_eq
  have member : ∀ y ∈ as ++ bs, y ≠ s := fun y mem is => apart (is ▸ mem)
  refine ⟨?_, same, removed⟩
  apply ok.change (ok.type_lt listed)
  · exact fun x mem => ok.typed s.2 x (within mem)
  · exact same.available
  · rw [heads, lasts, Function.update_self, Function.update_self, ← next, ← prev]
    refine linked.remove ?_ ?_ ?_ ?_
    · intro y is
      have other := member y (List.mem_append_left _ (List.mem_of_getLast? is))
      rw [(rest y other).2.1, if_pos is, next]
    · intro y mem no
      rw [(rest y (member y mem)).2.1, if_neg no]
    · intro y is
      have other := member y (List.mem_append_right _ (List.mem_of_head? is))
      rw [(rest y other).2.2, if_pos is, prev]
    · intro y mem no
      rw [(rest y (member y mem)).2.2, if_neg no]
  · intro t' different
    rw [heads, lasts, Function.update_of_ne different, Function.update_of_ne different]
    exact ⟨rfl, rfl⟩
  · intro x different
    have other : x ≠ s := fun is => different (by rw [is])
    have typed : ∀ y ∈ as ++ bs, y.2 = s.2 := fun y mem => (ok.typed s.2 y (within mem)).1
    have noLast : as.getLast? ≠ some x := fun is =>
      different (typed x (List.mem_append_left _ (List.mem_of_getLast? is)))
    have noFirst : bs.head? ≠ some x := fun is =>
      different (typed x (List.mem_append_right _ (List.mem_of_head? is)))
    rw [(rest x other).2.1, (rest x other).2.2, if_neg noLast, if_neg noFirst]
    exact ⟨rfl, rfl⟩
  · intro x region
    by_cases is : x = s
    · subst is
      rw [removed, if_pos rfl]
      simp [List.mem_append.not.mp apart]
    · rw [(rest x is).1, ok.added x region]
      by_cases type : x.2 = s.2
      · rw [if_pos type, type, split]
        simp [is]
      · rw [if_neg type]
  · intro t'
    rw [bitmap]
    exact ok.bit_removed split t'
  · rw [size, split]
    simp only [setSizes_append]
    simp only [setSizes, List.map_cons, List.sum_cons]
    omega

end FreeList

end ArkRuntime
