import ArkRuntime.FreeList.Run
import Mathlib.Order.CompletePartialOrder

/-!
# Merging free lists

`FreeObjectList::Merge` is to move the sets of another list into the list. It links them behind the last sets
of the same types, but a type that had no sets gets none: the new first set is only stored in a local variable.
And then the other list is rebuilt, which resets all sets that were moved. So whatever the other list had is
lost, and the merge does what it is for only when there was nothing.
-/

namespace ArkRuntime

namespace FreeList

variable {ρ : Type} [DecidableEq ρ]

/-! ## The code -/

/-- The sets of one type of the other list, from `set` to `last`. -/
def mergeSets (mem : Memory ρ) (list : FreeObjectList ρ) (set last : Option (SetId ρ)) :
    Memory ρ × FreeObjectList ρ :=
  match set with
  | none => (mem, list)
  | some s =>
      if (mem.sets s).available = 0 then (mem, list)
      else
        let mem :=
          match list.sets s.2 with
          -- `top = set` assigns to a local variable
          | none => mem
          | some _ => (mem.linkNext (list.lastSets s.2) (some s)).setPrev s (list.lastSets s.2)
        let list := { list with lastSets := Function.update list.lastSets s.2 last }
        (mem, list.setNoneEmptyBit s.2)

/-- `EnumerateTopAndLastSets` in `Merge`, for the types of a list. -/
def mergeTypes (other : FreeObjectList ρ) : List Nat → Memory ρ → FreeObjectList ρ → Memory ρ × FreeObjectList ρ
  | [], mem, list => (mem, list)
  | t :: types, mem, list =>
      let (mem, list) := mergeSets mem list (other.sets t) (other.lastSets t)
      mergeTypes other types mem list

/-- `EnumerateSets` in `Rebuild`, for the sets of one type. -/
def rebuildSets : Nat → Option (SetId ρ) → Memory ρ → Option (Memory ρ)
  | 0, _, _ => none
  | _ + 1, none, mem => some mem
  | fuel + 1, some current, mem => rebuildSets fuel (mem.sets current).next (mem.rebuild current)

def rebuildTypes (fuel : Nat) (list : FreeObjectList ρ) : List Nat → Memory ρ → Option (Memory ρ)
  | [], mem => some mem
  | t :: types, mem => do rebuildTypes fuel list types (← rebuildSets fuel (list.sets t) mem)

/-- `Rebuild`. -/
def rebuild (fuel : Nat) (mem : Memory ρ) (list : FreeObjectList ρ) : Option (Memory ρ × FreeObjectList ρ) := do
  return (← rebuildTypes fuel list (List.range numberOfSets) mem, .init)

/-- `Merge`: the memory, the list and the other list. -/
def merge (fuel : Nat) (mem : Memory ρ) (list other : FreeObjectList ρ) :
    Option (Memory ρ × FreeObjectList ρ × FreeObjectList ρ) := do
  let (mem, list) := mergeTypes other (List.range numberOfSets) mem list
  let list := { list with available := list.available + other.available }
  let (mem, other) ← rebuild fuel mem other
  return (mem, list, other)

/-! ## What a merge is for -/

/-- The list has all objects and the available size of both, the other one is empty, and the sets of the list
    are linked in both directions, as the bitmap shows. -/
structure Merged (mem : Memory ρ) (list other : FreeObjectList ρ) (mem' : Memory ρ)
    (list' other' : FreeObjectList ρ) : Prop where
  objects : ∀ o, HasObject ⟨mem, list⟩ o ∨ HasObject ⟨mem, other⟩ o → HasObject ⟨mem', list'⟩ o
  available : list'.available = list.available + other.available
  empty : other' = .init
  linked : ∃ chains : Nat → List (SetId ρ), (∀ t, DoublyLinked (fun s => (mem'.sets s).next) (fun s => (mem'.sets s).prev)
    (list'.sets t) (list'.lastSets t) (chains t)) ∧
    ∀ t, list'.noneEmptySetBitMap.getLsbD t = true ↔ list'.sets t ≠ none

/-! ## Rebuilding -/

variable {R R' : Set ρ} {mem : Memory ρ} {list other : FreeObjectList ρ}

theorem rebuildSets_spec {current : Option (SetId ρ)} {l : List (SetId ρ)}
    (path : Path (fun s => (mem.sets s).next) current l none) (distinct : l.Nodup) :
    ∃ mem', (∀ fuel, l.length < fuel → rebuildSets fuel current mem = some mem') ∧
      mem'.objects = mem.objects ∧ ∀ x, mem'.sets x = if x ∈ l then .init else mem.sets x := by
  induction l generalizing current mem with
  | nil =>
    cases (show current = none from path)
    refine ⟨mem, ?_, rfl, fun x => by simp⟩
    intro fuel enough
    obtain ⟨fuel, rfl⟩ := Nat.exists_eq_add_of_lt enough
    rfl
  | cons s l ih =>
    obtain ⟨rfl, rest⟩ := path
    obtain ⟨fresh, distinct⟩ := List.nodup_cons.mp distinct
    have rest' : Path (fun x => ((mem.rebuild s).sets x).next) (mem.sets s).next l none := by
      refine rest.congr fun x member => ?_
      have apart : x ≠ s := fun is => fresh (is ▸ member)
      simp only [Memory.rebuild, Memory.setSet_of_ne _ apart]
    obtain ⟨mem', run, objects, sets⟩ := ih rest' distinct
    refine ⟨mem', ?_, objects, fun x => ?_⟩
    · intro fuel enough
      obtain ⟨fuel, rfl⟩ := Nat.exists_eq_add_of_lt enough
      rw [rebuildSets]
      exact run _ (by simp only [List.length_cons]; omega)
    · rw [sets x, Memory.rebuild, Memory.setSet_sets]
      by_cases here : x = s <;> by_cases there : x ∈ l <;> simp [here, there]

/-- All sets of the types are reset. -/
theorem rebuildTypes_spec {chains : Nat → List (SetId ρ)} (types : List Nat)
    (paths : ∀ t, Path (fun s => (mem.sets s).next) (list.sets t) (chains t) none)
    (distinct : ∀ t, (chains t).Nodup) (typed : ∀ t, ∀ s ∈ chains t, s.2 = t) (once : types.Nodup) :
    ∃ mem' bound, (∀ fuel, bound < fuel → rebuildTypes fuel list types mem = some mem') ∧
      mem'.objects = mem.objects ∧
      ∀ x, mem'.sets x = if x.2 ∈ types ∧ x ∈ chains x.2 then .init else mem.sets x := by
  -- the chains of the types still to come are untouched
  have general : ∀ mem1 : Memory ρ,
      (∀ t ∈ types, Path (fun s => (mem1.sets s).next) (list.sets t) (chains t) none) →
      ∃ mem' bound, (∀ fuel, bound < fuel → rebuildTypes fuel list types mem1 = some mem') ∧
        mem'.objects = mem1.objects ∧
        ∀ x, mem'.sets x = if x.2 ∈ types ∧ x ∈ chains x.2 then .init else mem1.sets x := by
    induction types with
    | nil => exact fun mem1 _ => ⟨mem1, 0, fun _ _ => rfl, rfl, fun x => by simp⟩
    | cons t types ih =>
      obtain ⟨fresh, once⟩ := List.nodup_cons.mp once
      intro mem1 paths1
      obtain ⟨mem2, run, objects, sets⟩ := rebuildSets_spec (paths1 t List.mem_cons_self) (distinct t)
      obtain ⟨mem', bound, run', objects', sets'⟩ := ih once mem2 fun t' member => by
        refine (paths1 t' (List.mem_cons_of_mem t member)).congr fun x inside => ?_
        have apart : x ∉ chains t := by
          intro also
          rw [typed t' x inside |>.symm.trans (typed t x also)] at member
          exact fresh member
        simp only [sets x, if_neg apart]
      refine ⟨mem', max (chains t).length bound, ?_, objects'.trans objects, fun x => ?_⟩
      · intro fuel enough
        rw [rebuildTypes, run fuel (by omega)]
        exact run' fuel (by omega)
      · rw [sets' x, sets x]
        by_cases here : x.2 = t
        · have later : x.2 ∉ types := here ▸ fresh
          by_cases inside : x ∈ chains x.2
          · simp [later, here, here ▸ inside]
          · simp [later, here, here ▸ inside]
        · have no : x ∉ chains t := fun inside => here (typed t x inside)
          simp [here, no]
  exact general mem fun t _ => paths t

/-! ## Linking the sets -/

/-- What linking the sets of some types changes: no object, no first set, and of the next pointers only those of last sets of the
    list, which then lead to a first set of the other one. -/
structure Linked (types : List Nat) (mem : Memory ρ) (list other : FreeObjectList ρ) (mem' : Memory ρ)
    (list' : FreeObjectList ρ) : Prop where
  same : SameObjects mem mem'
  sets : list'.sets = list.sets
  available : list'.available = list.available
  next : ∀ x, (mem'.sets x).next = (mem.sets x).next ∨
    (x.2 ∈ types ∧ list.lastSets x.2 = some x ∧ (mem'.sets x).next = other.sets x.2)

theorem mergeSets_linked (mem : Memory ρ) (list : FreeObjectList ρ) {t : Nat} (typed : ∀ s, other.sets t = some s → s.2 = t)
    (last : ∀ s, list.lastSets t = some s → s.2 = t) :
    Linked [t] mem list other (mergeSets mem list (other.sets t) (other.lastSets t)).1
      (mergeSets mem list (other.sets t) (other.lastSets t)).2 := by
  have nothing : Linked [t] mem list other mem list :=
    ⟨⟨rfl, fun _ => rfl, fun _ => rfl⟩, rfl, rfl, fun _ => .inl rfl⟩
  unfold mergeSets
  cases first : other.sets t with
  | none => exact nothing
  | some s =>
    have type := typed s first
    subst type
    by_cases empty : (mem.sets s).available = 0
    · simp only [empty, if_true]
      exact nothing
    · simp only [empty, if_false]
      cases top : list.sets s.2 with
      | none => exact ⟨⟨rfl, fun _ => rfl, fun _ => rfl⟩, rfl, rfl, fun _ => .inl rfl⟩
      | some y =>
        obtain ⟨same1, rest1⟩ := linkNext_spec mem (list.lastSets s.2) (some s)
        obtain ⟨same2, rest2⟩ :=
          linkPrev_spec (mem.linkNext (list.lastSets s.2) (some s)) (some s) (list.lastSets s.2)
        refine ⟨⟨same2.objects.trans same1.objects, fun x => ?_, fun x => ?_⟩, rfl, rfl, fun x => ?_⟩
        · exact (same2.freeObject x).trans (same1.freeObject x)
        · exact (same2.available x).trans (same1.available x)
        · have next := (rest2 x).2.1.trans (rest1 x).2.2
          by_cases is : list.lastSets s.2 = some x
          · have type := last x is
            refine .inr ⟨by simp [type], by rw [type, is], next.trans ?_⟩
            rw [if_pos is, type, first]
          · exact .inl (next.trans (if_neg is))

/-- The other types are left alone. -/
theorem mergeSets_lastSets {t t' : Nat} (typed : ∀ s, other.sets t = some s → s.2 = t) (apart : t' ≠ t) :
    (mergeSets mem list (other.sets t) (other.lastSets t)).2.lastSets t' = list.lastSets t' := by
  unfold mergeSets
  cases first : other.sets t with
  | none => rfl
  | some s =>
    have type := typed s first
    subst type
    by_cases empty : (mem.sets s).available = 0
    · simp only [empty, if_true]
    · simp only [empty, if_false, FreeObjectList.setNoneEmptyBit]
      exact Function.update_of_ne apart _ _

theorem mergeTypes_linked (types : List Nat) (mem : Memory ρ) (list : FreeObjectList ρ) (once : types.Nodup)
    (typed : ∀ t s, other.sets t = some s → s.2 = t)
    (last : ∀ t ∈ types, ∀ s, list.lastSets t = some s → s.2 = t) :
    Linked types mem list other (mergeTypes other types mem list).1 (mergeTypes other types mem list).2 := by
  induction types generalizing mem list with
  | nil => exact ⟨⟨rfl, fun _ => rfl, fun _ => rfl⟩, rfl, rfl, fun _ => .inl rfl⟩
  | cons t types ih =>
    obtain ⟨fresh, once⟩ := List.nodup_cons.mp once
    have step := mergeSets_linked mem list (typed t) (last t List.mem_cons_self)
    have kept : ∀ t' ∈ types, (mergeSets mem list (other.sets t) (other.lastSets t)).2.lastSets t' =
        list.lastSets t' :=
      fun t' member => mergeSets_lastSets (typed t) fun is => fresh (is ▸ member)
    have rest := ih (mergeSets mem list (other.sets t) (other.lastSets t)).1
      (mergeSets mem list (other.sets t) (other.lastSets t)).2 once fun t' member s is =>
        last t' (List.mem_cons_of_mem t member) s ((kept t' member).symm.trans is)
    refine ⟨⟨rest.same.objects.trans step.same.objects, fun x => ?_, fun x => ?_⟩,
      rest.sets.trans step.sets, rest.available.trans step.available, fun x => ?_⟩
    · exact (rest.same.freeObject x).trans (step.same.freeObject x)
    · exact (rest.same.available x).trans (step.same.available x)
    · rcases rest.next x with same | ⟨member, is, next⟩
      · rcases step.next x with same' | ⟨member, is, next⟩
        · exact .inl (same.trans same')
        · refine .inr ⟨?_, is, same.trans next⟩
          rw [List.mem_singleton.mp member]
          exact List.mem_cons_self
      · exact .inr ⟨List.mem_cons_of_mem t member, (kept _ member).symm.trans is, next⟩

/-! ## The merge -/

variable {chains chains' : Nat → List (SetId ρ)} {objs objs' : SetId ρ → List Nat}

/-- A merge returns: the sets are linked first, and then those of the other list are reset. -/
theorem merge_run (wf : WellFormed R ⟨mem, list⟩ chains objs 0) (wf' : WellFormed R' ⟨mem, other⟩ chains' objs' 0)
    (apart : Disjoint R R') :
    ∃ mem1 list1 mem' bound, mergeTypes other (List.range numberOfSets) mem list = (mem1, list1) ∧
      Linked (List.range numberOfSets) mem list other mem1 list1 ∧
      (∀ fuel, bound < fuel → merge fuel mem list other =
        some (mem', { list1 with available := list1.available + other.available }, .init)) ∧
      mem'.objects = mem1.objects ∧
      ∀ x, mem'.sets x = if x ∈ chains' x.2 then .init else mem1.sets x := by
  have linked : Linked (List.range numberOfSets) mem list other _ _ :=
    mergeTypes_linked (List.range numberOfSets) mem list List.nodup_range
    (fun t s first => by
      have head := (wf'.list.linked t).head_eq
      exact (wf'.list.typed t s (List.mem_of_head? (head.symm.trans first))).1)
    (fun t _ s is => by
      have last := (wf.list.linked t).last_eq
      exact (wf.list.typed t s (List.mem_of_getLast? (last.symm.trans is))).1)
  generalize run1 : mergeTypes other (List.range numberOfSets) mem list = r at linked
  obtain ⟨mem1, list1⟩ := r
  have paths : ∀ t, Path (fun s => (mem1.sets s).next) (other.sets t) (chains' t) none := by
    intro t
    refine (wf'.list.linked t).forward.congr fun x inside => ?_
    rcases linked.next x with same | ⟨_, is, _⟩
    · exact same
    · -- a last set of the list is in another region
      have last := (wf.list.linked x.2).last_eq
      have region := (wf.list.typed _ x (List.mem_of_getLast? (last.symm.trans is))).2
      exact absurd (wf'.list.typed t x inside).2 (Set.disjoint_left.mp apart region)
  obtain ⟨mem', bound, run, objects, sets⟩ := rebuildTypes_spec (List.range numberOfSets) paths
    (fun t => (wf'.list.linked t).distinct) (fun t x inside => (wf'.list.typed t x inside).1) List.nodup_range
  refine ⟨mem1, list1, mem', bound, rfl, linked, ?_, objects, fun x => ?_⟩
  · intro fuel enough
    rw [merge, run1]
    simp only [rebuild, run fuel enough, Option.bind_eq_bind, Option.bind_some, Option.pure_def]
  · rw [sets x]
    by_cases inside : x ∈ chains' x.2
    · have below := wf'.list.type_lt inside
      simp [inside, below]
    · simp [inside]

omit [DecidableEq ρ] in
/-- A list with some available size has an object. -/
theorem WellFormed.exists_object {st : State ρ} (wf : WellFormed R st chains objs 0)
    (positive : st.list.available ≠ 0) : ∃ s o, s ∈ chains s.2 ∧ o ∈ objs s := by
  rw [wf.available_eq] at positive
  cases all : (allSets chains).flatMap objs with
  | nil =>
    rw [all] at positive
    exact absurd rfl positive
  | cons o rest =>
    have member : o ∈ (allSets chains).flatMap objs := by
      rw [all]
      exact List.mem_cons_self
    obtain ⟨s, inside, here⟩ := List.mem_flatMap.mp member
    obtain ⟨t, _, listed⟩ := List.mem_flatMap.mp inside
    exact ⟨s, o, wf.list.listed_of listed, here⟩

/-- What the other list has is lost. -/
theorem merge_loses (wf : WellFormed R ⟨mem, list⟩ chains objs 0) (wf' : WellFormed R' ⟨mem, other⟩ chains' objs' 0)
    (apart : Disjoint R R') (regionOf : Nat → ρ) (located : ∀ o, IsFree R mem o → regionOf o ∈ R)
    (located' : ∀ o, IsFree R' mem o → regionOf o ∈ R') (positive : other.available ≠ 0)
    {fuel : Nat} {mem' : Memory ρ} {list' other' : FreeObjectList ρ}
    (run : ∀ more, merge (fuel + more) mem list other = some (mem', list', other')) :
    ¬ Merged mem list other mem' list' other' := by
  obtain ⟨mem1, list1, mem2, bound, _, linked, run', objects, sets⟩ := merge_run wf wf' apart
  have same := (run (bound + 1)).symm.trans (run' (fuel + (bound + 1)) (by omega))
  simp only [Option.some.injEq, Prod.mk.injEq] at same
  obtain ⟨rfl, rfl, _⟩ := same
  obtain ⟨s, o, inside, here⟩ := wf'.exists_object positive
  have region := (wf'.list.typed _ s inside).2
  intro merged
  obtain ⟨x, ⟨l, path, listed⟩, os, objectPath, member⟩ :=
    merged.objects o (.inr ((wf'.hasObject_iff o).mpr ⟨s, inside, here⟩))
  -- the sets that are linked from the list are its own ones and reset ones of the other list
  have closed := path.mem_of_closed (P := fun y => y ∈ chains y.2 ∨ y ∈ chains' y.2)
    (by
      intro y z own next
      simp only [sets y] at next
      by_cases reset : y ∈ chains' y.2
      · rw [if_pos reset] at next
        cases next
      · rw [if_neg reset] at next
        rcases linked.next y with same | ⟨_, _, first⟩
        · rcases own with own | no
          · obtain ⟨as, bs, split⟩ := List.append_of_mem own
            have links := wf.list.linked y.2
            rw [split] at links
            have behind : bs.head? = some z := by
              rw [← links.next_eq, ← next]
              exact same.symm
            refine .inl (wf.list.listed_of (t := y.2) ?_)
            rw [split]
            exact List.mem_append_right _ (List.mem_cons_of_mem _ (List.mem_of_head? behind))
          · exact absurd no reset
        · rw [first] at next
          have head := (wf'.list.linked y.2).head_eq
          exact .inr (wf'.list.listed_of (List.mem_of_head? (head.symm.trans next))))
    (by
      intro y first
      simp only [linked.sets] at first
      have head := (wf.list.linked x.2).head_eq
      exact .inl (wf.list.listed_of (List.mem_of_head? (head.symm.trans first))))
    x listed
  simp only [sets x] at objectPath
  by_cases reset : x ∈ chains' x.2
  · rw [if_pos reset] at objectPath
    rw [objectPath.nil_of_none] at member
    exact absurd member List.not_mem_nil
  · rw [if_neg reset, linked.same.freeObject x, objects, linked.same.objects] at objectPath
    rcases closed with own | no
    · have own_region := (wf.list.typed _ x own).2
      have first := located o ⟨x, own_region, os, objectPath, member⟩
      have second := located' o ((wf'.isFree_iff o).mpr ⟨s, region, here⟩)
      exact Set.disjoint_left.mp apart first second
    · exact reset no

theorem mergeTypes_nothing (empty : ∀ t s, other.sets t = some s → (mem.sets s).available = 0) (types : List Nat) :
    mergeTypes other types mem list = (mem, list) := by
  induction types with
  | nil => rfl
  | cons t types ih =>
    have step : mergeSets mem list (other.sets t) (other.lastSets t) = (mem, list) := by
      unfold mergeSets
      cases first : other.sets t with
      | none => rfl
      | some s => simp only [empty t s first, if_true]
    rw [mergeTypes, step]
    exact ih

/-- A merge with nothing. -/
theorem merge_keeps (wf : WellFormed R ⟨mem, list⟩ chains objs 0) (wf' : WellFormed R' ⟨mem, other⟩ chains' objs' 0)
    (apart : Disjoint R R') (nothing : other.available = 0)
    {fuel : Nat} {mem' : Memory ρ} {list' other' : FreeObjectList ρ}
    (run : ∀ more, merge (fuel + more) mem list other = some (mem', list', other')) :
    Merged mem list other mem' list' other' := by
  have none : ∀ s, s ∈ chains' s.2 → (mem.sets s).available = 0 := by
    intro s inside
    have le := wf'.list.available_le (Int.le_refl 0) inside
    simp only [nothing] at le
    omega
  have empty : ∀ t s, other.sets t = some s → (mem.sets s).available = 0 := by
    intro t s first
    have head := (wf'.list.linked t).head_eq
    exact none s (wf'.list.listed_of (List.mem_of_head? (head.symm.trans first)))
  obtain ⟨mem1, list1, mem2, bound, types, _, run', objects, sets⟩ := merge_run wf wf' apart
  rw [mergeTypes_nothing empty] at types
  cases types
  have same := (run (bound + 1)).symm.trans (run' (fuel + (bound + 1)) (by omega))
  simp only [Option.some.injEq, Prod.mk.injEq] at same
  obtain ⟨rfl, rfl, rfl⟩ := same
  -- the sets of the list are in other regions than those that are reset
  have kept : ∀ x, x.1 ∈ R → mem'.sets x = mem.sets x := by
    intro x region
    rw [sets x, if_neg fun inside => Set.disjoint_left.mp apart region (wf'.list.typed _ x inside).2]
  have after : WellFormed R ⟨mem', { list with available := list.available + other.available }⟩ chains objs 0 := by
    constructor
    · have moved : ListOk R ⟨mem', list⟩ chains 0 := by
        refine wf.list.congr rfl (fun t x inside => ?_) (fun x region => by simp only [kept x region])
        simp only [kept x (wf.list.typed t x inside).2, and_self]
      refine moved.setAvailable ?_
      simp only [nothing]
      omega
    · exact wf.sets.congr objects (fun x region => by simp only [kept x region])
        (fun x region => by simp only [kept x region])
  refine ⟨fun o has => ?_, rfl, rfl, chains, after.list.linked, after.list.bitmap⟩
  rcases has with own | others
  · exact (after.hasObject_iff o).mpr ((wf.hasObject_iff o).mp own)
  · obtain ⟨s, inside, here⟩ := (wf'.hasObject_iff o).mp others
    rw [(wf'.sets.available_eq_zero_iff (wf'.list.typed _ s inside).2).mp (none s inside)] at here
    exact absurd here List.not_mem_nil

/-- A merge does what it is for exactly when the other list has nothing. -/
theorem merged_iff (ok : Consistent R ⟨mem, list⟩) (ok' : Consistent R' ⟨mem, other⟩) (apart : Disjoint R R')
    (regionOf : Nat → ρ) (located : ∀ o, IsFree R mem o → regionOf o ∈ R)
    (located' : ∀ o, IsFree R' mem o → regionOf o ∈ R') :
    ∃ fuel mem' list' other', (∀ more, merge (fuel + more) mem list other = some (mem', list', other')) ∧
      (Merged mem list other mem' list' other' ↔ other.available = 0) := by
  obtain ⟨chains, objs, wf⟩ := ok
  obtain ⟨chains', objs', wf'⟩ := ok'
  obtain ⟨mem1, list1, mem', bound, _, _, run, _, _⟩ := merge_run wf wf' apart
  have run' : ∀ more, merge (bound + 1 + more) mem list other = _ := fun more => run _ (by omega)
  refine ⟨bound + 1, mem', _, _, run', ?_, fun nothing => merge_keeps wf wf' apart nothing run'⟩
  intro merged
  by_contra positive
  exact merge_loses wf wf' apart regionOf located located' positive run' merged

/-! ## A list with one block -/

/-- Two regions, one of which has a free block. -/
theorem oneBlock_consistent : Consistent {true} (oneBlock true) :=
  reached_consistent (newState_start {true}) (.single (oneBlock_step (Set.mem_singleton true)))

theorem oneBlock_other_consistent : Consistent {false} ⟨(oneBlock true).mem, .init⟩ := by
  have sets : ∀ s : SetId Bool, s.1 ∈ ({false} : Set Bool) → (oneBlock true).mem.sets s = .init := by
    rintro ⟨region, t⟩ rfl
    rfl
  apply Start.consistent
  refine ⟨rfl, ⟨fun _ => [], ?_, ?_, ?_, ?_, ?_⟩, ?_⟩
  · intro s region
    rw [sets s region]
    rfl
  · intro s region
    rw [sets s region]
    rfl
  · exact fun _ _ a mem => absurd mem List.not_mem_nil
  · exact fun _ _ => List.nodup_nil
  · exact fun _ _ _ _ _ a mem => absurd mem List.not_mem_nil
  · intro s region
    rw [sets s region]
    rfl

theorem oneBlock_other_located (o : Nat) : ¬ IsFree {false} (oneBlock true).mem o := by
  rintro ⟨⟨region, t⟩, rfl, l, path, mem⟩
  cases path.nil_of_none
  exact absurd mem List.not_mem_nil

theorem disjoint_regions : Disjoint ({false} : Set Bool) {true} := by simp

theorem merged_iff_empty :
    Consistent {true} (oneBlock true) ∧ Consistent {false} ⟨(oneBlock true).mem, .init⟩ ∧
      ∃ fuel mem' list' other',
        (∀ more, merge (fuel + more) (oneBlock true).mem (oneBlock true).list .init = some (mem', list', other')) ∧
        (Merged (oneBlock true).mem (oneBlock true).list .init mem' list' other' ↔
          (FreeObjectList.init : FreeObjectList Bool).available = 0) :=
  ⟨oneBlock_consistent, oneBlock_other_consistent,
    merged_iff oneBlock_consistent oneBlock_other_consistent disjoint_regions.symm (fun _ => true)
      (fun _ _ => Set.mem_singleton true) (fun o free => absurd free (oneBlock_other_located o))⟩

/-- A new list is merged with one that has a block. -/
theorem merge_loses_block :
    Consistent {false} ⟨(oneBlock true).mem, .init⟩ ∧ Consistent {true} (oneBlock true) ∧
      ∃ fuel mem' list' other',
        (∀ more, merge (fuel + more) (oneBlock true).mem .init (oneBlock true).list = some (mem', list', other')) ∧
        ¬ Merged (oneBlock true).mem .init (oneBlock true).list mem' list' other' := by
  refine ⟨oneBlock_other_consistent, oneBlock_consistent, ?_⟩
  obtain ⟨chains, objs, wf⟩ := oneBlock_other_consistent
  obtain ⟨chains', objs', wf'⟩ := oneBlock_consistent
  obtain ⟨mem1, list1, mem', bound, _, _, run, _, _⟩ := merge_run wf wf' disjoint_regions
  have run' : ∀ more, merge (bound + 1 + more) (oneBlock true).mem .init (oneBlock true).list = _ :=
    fun more => run _ (by omega)
  refine ⟨bound + 1, mem', _, _, run', ?_⟩
  exact merge_loses wf wf' disjoint_regions (fun _ => true)
    (fun o free => absurd free (oneBlock_other_located o)) (fun _ _ => Set.mem_singleton true)
    (by decide) run'

end FreeList

end ArkRuntime
