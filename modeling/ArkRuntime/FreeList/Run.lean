import ArkRuntime.FreeList.Lists

/-!
# Runs of a free list

The operations `Free`, `Allocate`, `AddSet` and `RemoveSet` in any order, with writes of the program to memory
that is not free in between: the sets stay linked in both directions, the bitmap shows which types have sets,
no free object is in the list twice, and the available size is the sum over the free objects of the list.

What the callers promise: a block that is freed is a free object of its size in one of the regions `R` and not
yet in a set, sets that are added are not in the list, and sets that are removed are.
-/

namespace ArkRuntime

namespace FreeList

variable {ρ : Type} [DecidableEq ρ]

/-- The list has the sets `chains`, and the sets of the regions `R` have the objects `objs`. -/
structure WellFormed (R : Set ρ) (st : State ρ) (chains : Nat → List (SetId ρ)) (objs : SetId ρ → List Nat)
    (slack : Int) : Prop where
  list : ListOk R st chains slack
  sets : SetsOk R st.mem objs

variable {R : Set ρ} {st st' : State ρ} {chains : Nat → List (SetId ρ)} {objs : SetId ρ → List Nat}
  {slack : Int} {s : SetId ρ}

/-- Some sets and objects make the state well-formed. -/
def Consistent (R : Set ρ) (st : State ρ) : Prop := ∃ chains objs, WellFormed R st chains objs 0

/-! ## Adding and removing sets -/

theorem addSet_wellFormed (wf : WellFormed R st chains objs slack) (region : s.1 ∈ R)
    (type : s.2 < numberOfSets) (absent : s ∉ chains s.2) :
    ∃ chains', WellFormed R (st.addSet s).1 chains' objs slack ∧
      (st.addSet s).1.mem.objects = st.mem.objects ∧ ∀ t, ∀ x ∈ chains' t, x ∈ chains t ∨ x = s := by
  by_cases empty : (st.mem.sets s).available = 0
  · refine ⟨chains, ?_⟩
    rw [State.addSet, if_pos (.inl empty)]
    exact ⟨wf, rfl, fun _ _ => .inl⟩
  · obtain ⟨list, same⟩ := addSet_ok wf.list region type absent empty
    refine ⟨_, ⟨list, same.setsOk wf.sets⟩, same.objects, fun t x inside => ?_⟩
    by_cases here : t = s.2
    · subst here
      rw [Function.update_self] at inside
      exact (List.mem_cons.mp inside).symm
    · rw [Function.update_of_ne here] at inside
      exact .inl inside

theorem removeSet_wellFormed (wf : WellFormed R st chains objs slack) (nonneg : 0 ≤ slack)
    (listed : s ∈ chains s.2) :
    ∃ chains', WellFormed R (st.removeSet s) chains' objs slack ∧ s ∉ chains' s.2 := by
  obtain ⟨as, bs, split⟩ := List.append_of_mem listed
  obtain ⟨list, same, _⟩ := removeSet_ok wf.list nonneg split
  refine ⟨_, ⟨list, same.setsOk wf.sets⟩, ?_⟩
  have distinct := (wf.list.linked s.2).distinct
  rw [split] at distinct
  rw [Function.update_self]
  exact (List.nodup_cons.mp (List.perm_middle.nodup_iff.mp distinct)).1

/-! ## Freeing a block -/

variable {size t : Nat} {regionOf : Nat → ρ}

theorem selectSetType_lt (select : selectSetType size = some t) : t < numberOfSets := by
  unfold selectSetType at select
  by_cases small : size < 256
  · rw [if_pos small] at select
    by_cases tiny : size < minSize
    · rw [if_pos tiny] at select
      cases select
    · rw [if_neg tiny] at select
      cases select
      simp only [numberOfSets]
      omega
  · rw [if_neg small] at select
    by_cases large : size < 65536
    · rw [if_pos large] at select
      cases select
      have bits : size.log2 < 16 := (Nat.log2_lt (by omega)).mpr large
      simp only [numberOfSets]
      omega
    · rw [if_neg large] at select
      split at select
      · cases select
        decide
      · cases select
        decide

theorem selectSetType_of_le (le : minSize ≤ size) : ∃ t, selectSetType size = some t := by
  unfold selectSetType
  split
  · rw [if_neg (by omega)]
    exact ⟨_, rfl⟩
  · split
    · exact ⟨_, rfl⟩
    · split <;> exact ⟨_, rfl⟩

theorem minSize_le_of_select (select : selectSetType size = some t) : minSize ≤ size := by
  by_contra tiny
  rw [selectSetType, if_pos (by simp [minSize] at tiny; omega), if_pos (by omega)] at select
  cases select

/-- What `Free` does to the sets and their objects. -/
structure Freed (st : State ρ) (chains : Nat → List (SetId ρ)) (objs : SetId ρ → List Nat) (start size : Nat)
    (st' : State ρ) (chains' : Nat → List (SetId ρ)) (objs' : SetId ρ → List Nat) : Prop where
  sizes : ∀ a, (st'.mem.objects a).available = (st.mem.objects a).available
  kept : ∀ s, ∀ a ∈ objs s, a ∈ objs' s
  added : ∀ s, ∀ a ∈ objs' s, a ∈ objs s ∨
    a = start ∧ (st.mem.objects a).available = size ∧ selectSetType size = some s.2
  listed : ∀ t, ∀ s ∈ chains' t, s ∈ chains t ∨ start ∈ objs' s

theorem mem_update_cons {x : SetId ρ} {start a : Nat} :
    a ∈ Function.update objs s (start :: objs s) x ↔ a ∈ objs x ∨ a = start ∧ x = s := by
  by_cases same : x = s
  · subst same
    rw [Function.update_self, List.mem_cons, and_iff_left rfl, or_comm]
  · rw [Function.update_of_ne same]
    simp [same]

/-- The block is not in a set. -/
theorem free_wellFormed (wf : WellFormed R st chains objs 0) (regionOf : Nat → ρ) {start : Nat}
    (block : start ≠ 0 → minSize ≤ size → regionOf start ∈ R ∧ (st.mem.objects start).available = size ∧
      ∀ s, s.1 ∈ R → start ∉ objs s) :
    ∃ chains' objs', WellFormed R (st.free regionOf start size true) chains' objs' 0 ∧
      Freed st chains objs start size (st.free regionOf start size true) chains' objs' := by
  unfold State.free
  by_cases null : start = 0
  · rw [if_pos null]
    exact ⟨chains, objs, wf, fun _ => rfl, fun _ _ => id, fun _ _ => .inl, fun _ _ => .inl⟩
  rw [if_neg null]
  by_cases tiny : size < minSize
  · rw [if_pos tiny]
    refine ⟨chains, objs, ⟨?_, ?_⟩, fun a => ?_, fun _ _ => id, fun _ _ => .inl, fun _ _ => .inl⟩
    · exact ⟨wf.list.linked, wf.list.typed, wf.list.bound, wf.list.added, wf.list.bitmap, wf.list.available⟩
    · exact wf.sets.congr rfl (fun _ _ => rfl) (fun _ _ => rfl)
    · rfl
  rw [if_neg tiny]
  obtain ⟨region, is, fresh⟩ := block null (by omega)
  obtain ⟨t, select⟩ := selectSetType_of_le (Nat.le_of_not_lt tiny)
  have positive : 0 < size := by
    simp only [minSize] at tiny
    omega
  rw [select]
  simp only [if_true]
  have sets := wf.sets.free (s := (regionOf start, t)) region fresh is positive
  have others : ∀ s', s' ≠ (regionOf start, t) →
      (st.mem.free (regionOf start, t) start size).sets s' = st.mem.sets s' := by
    intro s' other
    simp [Memory.free, Memory.setSet_of_ne _ other]
  have self : (st.mem.free (regionOf start, t) start size).sets (regionOf start, t) =
      { st.mem.sets (regionOf start, t) with
        freeObject := some start, available := (st.mem.sets (regionOf start, t)).available + size } := by
    simp [Memory.free]
  have added := wf.list.added (regionOf start, t) region
  have same (a : Nat) : ((st.mem.free (regionOf start, t) start size).objects a).available =
      (st.mem.objects a).available := by
    simp [Memory.free]
  have kept (s : SetId ρ) (a : Nat) (mem : a ∈ objs s) :
      a ∈ Function.update objs (regionOf start, t) (start :: objs (regionOf start, t)) s :=
    mem_update_cons.mpr (.inl mem)
  have put (s : SetId ρ) (a : Nat)
      (mem : a ∈ Function.update objs (regionOf start, t) (start :: objs (regionOf start, t)) s) :
      a ∈ objs s ∨ a = start ∧ (st.mem.objects a).available = size ∧ selectSetType size = some s.2 := by
    refine (mem_update_cons.mp mem).imp_right ?_
    rintro ⟨first, at'⟩
    refine ⟨first, ?_, ?_⟩
    · rw [first, is]
    · rw [select, at']
  by_cases listed : (regionOf start, t) ∈ chains t
  · -- the set is in the list, and the available size of the list follows
    have yes := added.mpr listed
    rw [self, if_neg (by simp [yes])]
    refine ⟨chains, _, ⟨?_, sets⟩, same, kept, put, fun _ _ => .inl⟩
    have list : ListOk R ⟨st.mem.free (regionOf start, t) start size, st.list⟩ chains _ :=
      wf.list.resize listed rfl others (by rw [self]) (by rw [self]) (by rw [self])
    apply list.setAvailable
    simp only [self]
    omega
  · have no : (st.mem.sets (regionOf start, t)).isAdded = false := by
      rw [← Bool.not_eq_true, added]
      exact listed
    rw [self, if_pos (by simp [no])]
    have list : ListOk R ⟨st.mem.free (regionOf start, t) start size, st.list⟩ chains 0 := by
      refine wf.list.congr rfl (fun t' s' mem => ?_) (fun s' _ => ?_)
      · have other : s' ≠ (regionOf start, t) := by
          rintro rfl
          rw [← (wf.list.typed t' _ mem).1] at mem
          exact listed mem
        rw [others s' other]
        exact ⟨rfl, rfl, rfl⟩
      · by_cases same : s' = (regionOf start, t)
        · subst same
          rw [self]
        · rw [others s' same]
    obtain ⟨chains', wf', objects, inside⟩ :=
      addSet_wellFormed ⟨list, sets⟩ region (selectSetType_lt select) listed
    refine ⟨chains', _, wf', fun a => by rw [objects, same], kept, put, fun t' s mem => ?_⟩
    exact (inside t' s mem).imp_right fun is => mem_update_cons.mpr (.inr ⟨rfl, is⟩)

/-! ## Allocating -/

/-- A set without objects that is not in the list is rebuilt. -/
theorem rebuild_wellFormed (wf : WellFormed R st chains objs slack) (region : s.1 ∈ R)
    (absent : s ∉ chains s.2) (empty : (st.mem.sets s).available = 0) :
    WellFormed R ⟨st.mem.rebuild s, st.list⟩ chains objs slack := by
  have none := (wf.sets.available_eq_zero_iff region).mp empty
  have first := wf.sets.path s region
  rw [none] at first
  have isAdded : (st.mem.sets s).isAdded = false := by
    rw [← Bool.not_eq_true, wf.list.added s region]
    exact absent
  constructor
  · refine wf.list.congr rfl (fun t x mem => ?_) (fun x _ => ?_)
    · have other : x ≠ s := by
        rintro rfl
        exact absent (wf.list.listed_of mem)
      rw [Memory.rebuild, Memory.setSet_of_ne _ other]
      exact ⟨rfl, rfl, rfl⟩
    · by_cases same : x = s
      · subst same
        rw [Memory.rebuild, Memory.setSet_self, isAdded]
        rfl
      · rw [Memory.rebuild, Memory.setSet_of_ne _ same]
  · refine wf.sets.congr rfl (fun x _ => ?_) (fun x _ => ?_)
    · by_cases same : x = s
      · subst same
        rw [Memory.rebuild, Memory.setSet_self, first.start_of_nil]
        rfl
      · rw [Memory.rebuild, Memory.setSet_of_ne _ same]
    · by_cases same : x = s
      · subst same
        rw [Memory.rebuild, Memory.setSet_self, empty]
        rfl
      · rw [Memory.rebuild, Memory.setSet_of_ne _ same]

/-- What `Allocate` does once it has obtained an object of a set of the list. -/
theorem obtained_wellFormed (wf : WellFormed R st chains objs 0) (listed : s ∈ chains s.2) {mem' : Memory ρ}
    {object : Nat} (obtained : Obtained R st.mem objs s mem' (some object)) :
    let st1 : State ρ := ⟨mem', st.list⟩
    let st2 : State ρ := if (mem'.sets s).available = 0 then
      ⟨(st1.removeSet s).mem.rebuild s, (st1.removeSet s).list⟩ else st1
    Consistent R ⟨st2.mem, { st2.list with
      available := st2.list.available - (st2.mem.objects object).available }⟩ := by
  intro st1 st2
  have region := (wf.list.typed s.2 s listed).2
  obtain ⟨as, bs, split, sets, sizes, others, next, prev, isAdded, sum⟩ := obtained
  have list : ListOk R st1 chains _ := wf.list.resize listed rfl others next prev isAdded
  have slack : (0 : Int) + (st.mem.sets s).available - (st1.mem.sets s).available =
      (st.mem.objects object).available := by
    simp only [st1]
    omega
  rw [slack] at list
  have wf1 : WellFormed R st1 chains _ _ := ⟨list, sets⟩
  -- the set leaves the list if it has no objects left
  obtain ⟨chains', wf2, size⟩ : ∃ chains', WellFormed R st2 chains' (Function.update objs s (as ++ bs))
      (st.mem.objects object).available ∧
      (st2.mem.objects object).available = (st.mem.objects object).available := by
    by_cases empty : (mem'.sets s).available = 0
    · have is : st2 = ⟨(st1.removeSet s).mem.rebuild s, (st1.removeSet s).list⟩ := if_pos empty
      obtain ⟨as', bs', split'⟩ := List.append_of_mem listed
      obtain ⟨_, same, _⟩ := removeSet_ok list (Int.natCast_nonneg _) split'
      obtain ⟨chains', wf', absent⟩ := removeSet_wellFormed wf1 (Int.natCast_nonneg _) listed
      rw [is]
      refine ⟨chains', rebuild_wellFormed wf' region absent ?_, ?_⟩
      · rw [same.available s]
        exact empty
      · calc ((((st1.removeSet s).mem.rebuild s).objects object).available)
            = ((st1.removeSet s).mem.objects object).available := rfl
          _ = (st1.mem.objects object).available := by rw [same.objects]
          _ = (st.mem.objects object).available := sizes object
    · have is : st2 = st1 := if_neg empty
      rw [is]
      exact ⟨chains, wf1, sizes object⟩
  refine ⟨chains', _, wf2.list.setAvailable ?_, wf2.sets⟩
  have total := wf2.list.available
  rw [size]
  omega

/-- A bound for the steps of the inner loop. -/
def stepBound (objs : SetId ρ → List Nat) (l : List (SetId ρ)) : Nat := (l.map fun s => (objs s).length + 1).sum

/-- The inner loop of `Allocate` before the sets `bs`. -/
theorem allocateInSets_spec (wf : WellFormed R st chains objs 0) (positive : 0 < size)
    {as bs : List (SetId ρ)} (split : chains t = as ++ bs) {current : Option (SetId ρ)}
    (path : Path (fun s => (st.mem.sets s).next) current bs none) :
    ∃ st' object,
      (∀ fuel, stepBound objs bs < fuel →
        State.allocateInSets size t fuel current st = some (st', object)) ∧
      (object = none → st' = st) ∧ Consistent R st' := by
  induction bs generalizing as current with
  | nil =>
    cases (show current = none from path)
    refine ⟨st, none, ?_, fun _ => rfl, chains, objs, wf⟩
    intro fuel enough
    obtain ⟨fuel, rfl⟩ := Nat.exists_eq_add_of_lt enough
    rfl
  | cons s bs ih =>
    obtain ⟨rfl, rest⟩ := path
    have listed : s ∈ chains t := by
      rw [split]
      simp
    obtain ⟨type, region⟩ := wf.list.typed t s listed
    have split' : chains t = (as ++ [s]) ++ bs := by simp [split]
    have bound : stepBound objs (s :: bs) = (objs s).length + 1 + stepBound objs bs := by
      simp [stepBound]
    by_cases little : (st.mem.sets s).available < size
    · obtain ⟨st', object, run, unchanged, ok⟩ := ih split' rest
      refine ⟨st', object, ?_, unchanged, ok⟩
      intro fuel enough
      obtain ⟨fuel, rfl⟩ := Nat.exists_eq_add_of_lt enough
      rw [State.allocateInSets, if_pos little]
      exact run _ (by omega)
    · -- the object that the set gives, if it gives one
      obtain ⟨mem', object, obtain_eq, obtained⟩ : ∃ mem' object,
          (∀ fuel, (objs s).length < fuel →
            st.mem.obtainFreeObject t s size fuel = some (mem', object)) ∧
          Obtained R st.mem objs s mem' object := by
        by_cases small : t ≤ smallSetMaxIndex
        · simp only [Memory.obtainFreeObject, if_pos small]
          exact ⟨_, _, fun _ _ => rfl, obtainSmallFreeObject_spec wf.sets region size⟩
        · simp only [Memory.obtainFreeObject, if_neg small]
          exact obtainLargeFreeObject_spec wf.sets region size
      cases object with
      | some object =>
        have ok := obtained_wellFormed wf (by rwa [type]) obtained
        refine ⟨_, some object, ?_, fun no => absurd no (by simp), ok⟩
        intro fuel enough
        obtain ⟨fuel, rfl⟩ := Nat.exists_eq_add_of_lt enough
        rw [State.allocateInSets, if_neg little, obtain_eq _ (by omega)]
        rfl
      | none =>
        -- nothing has changed, and the set is not empty
        cases (show mem' = st.mem from obtained)
        have nonempty : ¬ (st.mem.sets s).available = 0 := by omega
        by_cases small : t ≤ smallSetMaxIndex
        · refine ⟨st, none, ?_, fun _ => rfl, chains, objs, wf⟩
          intro fuel enough
          obtain ⟨fuel, rfl⟩ := Nat.exists_eq_add_of_lt enough
          rw [State.allocateInSets, if_neg little, obtain_eq _ (by omega)]
          simp only [Option.bind_eq_bind, Option.bind_some, if_neg nonempty, if_pos small]
          obtain ⟨fuel', more⟩ : ∃ n, stepBound objs (s :: bs) + fuel = n + 1 :=
            ⟨stepBound objs (s :: bs) + fuel - 1, by omega⟩
          rw [more]
          rfl
        · obtain ⟨st', object, run, unchanged, ok⟩ := ih split' rest
          refine ⟨st', object, ?_, unchanged, ok⟩
          intro fuel enough
          obtain ⟨fuel, rfl⟩ := Nat.exists_eq_add_of_lt enough
          rw [State.allocateInSets, if_neg little, obtain_eq _ (by omega)]
          simp only [Option.bind_eq_bind, Option.bind_some, if_neg nonempty, if_neg small]
          exact run _ (by omega)

/-- The outer loop of `Allocate`. -/
theorem allocateFrom_spec (wf : WellFormed R st chains objs 0) (positive : 0 < size) (rounds : Nat)
    (t lastType : Int) (first : -1 ≤ lastType) (nonzero : 0 < rounds)
    (enough : lastType < t → numberOfSets < rounds + t) :
    ∃ st' object bound,
      (∀ fuel, bound < fuel → State.allocateFrom size fuel rounds t lastType st = some (st', object)) ∧
      Consistent R st' := by
  induction rounds generalizing t lastType with
  | zero => omega
  | succ rounds ih =>
    by_cases go : lastType < t ∧ t < numberOfSets
    · have split : chains t.toNat = [] ++ chains t.toNat := rfl
      obtain ⟨st', object, run, unchanged, ok⟩ :=
        allocateInSets_spec wf positive split (wf.list.linked t.toNat).forward
      cases object with
      | some object =>
        refine ⟨st', object, stepBound objs (chains t.toNat), ?_, ok⟩
        intro fuel more
        rw [State.allocateFrom, if_pos go, run fuel more]
        rfl
      | none =>
        cases unchanged rfl
        obtain ⟨st', object, bound, run', ok'⟩ := ih
          (st.list.calcNextNoneEmptyIndex (t.toNat + 1)) t (by omega)
          (by omega) (by omega)
        refine ⟨st', object, max (stepBound objs (chains t.toNat)) bound, ?_, ok'⟩
        intro fuel more
        rw [State.allocateFrom, if_pos go, run fuel (by omega)]
        exact run' fuel (by omega)
    · refine ⟨st, none, 0, ?_, chains, objs, wf⟩
      intro fuel _
      rw [State.allocateFrom, if_neg go]

theorem allocate_spec (wf : WellFormed R st chains objs 0) (size : Nat) :
    ∃ st' object bound, (∀ fuel, bound < fuel → st.allocate fuel size = some (st', object)) ∧
      Consistent R st' := by
  by_cases empty : st.list.noneEmptySetBitMap = 0
  · refine ⟨st, none, 0, ?_, chains, objs, wf⟩
    intro fuel _
    rw [State.allocate, if_pos empty]
  · cases select : selectSetType size with
    | none =>
      refine ⟨st, none, 0, ?_, chains, objs, wf⟩
      intro fuel _
      rw [State.allocate, if_neg empty, select]
    | some t =>
      have positive : 0 < size := Nat.lt_of_lt_of_le (by decide) (minSize_le_of_select select)
      obtain ⟨st', object, bound, run, ok⟩ := allocateFrom_spec wf positive (numberOfSets + 1)
        (st.list.calcNextNoneEmptyIndex t) (t - 1) (by omega) (by omega) (by omega)
      refine ⟨st', object, bound, ?_, ok⟩
      intro fuel more
      rw [State.allocate, if_neg empty, select]
      exact run fuel more

/-! ## Runs -/

/-- The object is in a set of the regions `R`. -/
def IsFree (R : Set ρ) (mem : Memory ρ) (a : Nat) : Prop :=
  ∃ s : SetId ρ, s.1 ∈ R ∧ ∃ l, Path (fun a => (mem.objects a).next) (mem.sets s).freeObject l none ∧ a ∈ l

/-- The set is linked from the list. -/
def InList (st : State ρ) (s : SetId ρ) : Prop :=
  ∃ l, Path (fun s => (st.mem.sets s).next) (st.list.sets s.2) l none ∧ s ∈ l

/-- The object is in a set of the list. -/
def HasObject (st : State ρ) (o : Nat) : Prop :=
  ∃ s, InList st s ∧ ∃ l, Path (fun a => (st.mem.objects a).next) (st.mem.sets s).freeObject l none ∧ o ∈ l

/-- `Free(start, size, true)`, `Allocate`, `AddSet`, `RemoveSet`, and a write of the program. -/
inductive Op (ρ : Type) where
  | free (start size : Nat)
  | allocate (size : Nat)
  | addSet (s : SetId ρ)
  | removeSet (s : SetId ρ)
  | write (a : Nat) (object : FreeObject)

/-- What the callers promise. -/
def Op.Permitted (R : Set ρ) (regionOf : Nat → ρ) (st : State ρ) : Op ρ → Prop
  | .free start size => start ≠ 0 → minSize ≤ size →
      regionOf start ∈ R ∧ (st.mem.objects start).available = size ∧ ¬ IsFree R st.mem start
  | .allocate _ => True
  | .addSet s => s.1 ∈ R ∧ s.2 < numberOfSets ∧ ¬ InList st s
  | .removeSet s => InList st s
  | .write a _ => ¬ IsFree R st.mem a

def Op.Performs (regionOf : Nat → ρ) (st : State ρ) : Op ρ → State ρ → Prop
  | .free start size, st' => st' = st.free regionOf start size true
  | .allocate size, st' => ∃ object bound, ∀ fuel, bound < fuel → st.allocate fuel size = some (st', object)
  | .addSet s, st' => st' = (st.addSet s).1
  | .removeSet s, st' => st' = st.removeSet s
  | .write a object, st' => st' = ⟨st.mem.setObject a object, st.list⟩

def Step (R : Set ρ) (regionOf : Nat → ρ) (st st' : State ρ) : Prop :=
  ∃ op : Op ρ, op.Permitted R regionOf st ∧ op.Performs regionOf st st'

/-- A new list; no set has been added, and the sets may have objects. -/
def Start (R : Set ρ) (st : State ρ) : Prop :=
  st.list = .init ∧ (∃ objs, SetsOk R st.mem objs) ∧ ∀ s, s.1 ∈ R → (st.mem.sets s).isAdded = false

omit [DecidableEq ρ] in
theorem WellFormed.isFree_iff (wf : WellFormed R st chains objs slack) (a : Nat) :
    IsFree R st.mem a ↔ ∃ s : SetId ρ, s.1 ∈ R ∧ a ∈ objs s := by
  constructor
  · rintro ⟨s, region, l, path, mem⟩
    rw [path.unique (wf.sets.path s region)] at mem
    exact ⟨s, region, mem⟩
  · rintro ⟨s, region, mem⟩
    exact ⟨s, region, objs s, wf.sets.path s region, mem⟩

omit [DecidableEq ρ] in
theorem WellFormed.inList_iff (wf : WellFormed R st chains objs slack) (s : SetId ρ) :
    InList st s ↔ s ∈ chains s.2 := by
  constructor
  · rintro ⟨l, path, mem⟩
    rwa [path.unique (wf.list.linked s.2).forward] at mem
  · intro mem
    exact ⟨_, (wf.list.linked s.2).forward, mem⟩

omit [DecidableEq ρ] in
theorem WellFormed.hasObject_iff {st : State ρ} {slack : Int} (wf : WellFormed R st chains objs slack) (o : Nat) :
    HasObject st o ↔ ∃ s, s ∈ chains s.2 ∧ o ∈ objs s := by
  constructor
  · rintro ⟨s, listed, l, path, member⟩
    have inside := (wf.inList_iff s).mp listed
    rw [path.unique (wf.sets.path s (wf.list.typed _ s inside).2)] at member
    exact ⟨s, inside, member⟩
  · rintro ⟨s, inside, member⟩
    exact ⟨s, (wf.inList_iff s).mpr inside, objs s, wf.sets.path s (wf.list.typed _ s inside).2, member⟩

omit [DecidableEq ρ] in
theorem Start.consistent (start : Start R st) : Consistent R st := by
  obtain ⟨new, ⟨objs, sets⟩, notAdded⟩ := start
  refine ⟨fun _ => [], objs, ⟨?_, ?_, ?_, ?_, ?_, ?_⟩, sets⟩
  · intro t
    rw [new]
    exact DoublyLinked.nil
  · intro t s mem
    exact absurd mem List.not_mem_nil
  · exact fun _ _ => rfl
  · intro s region
    simp [notAdded s region]
  · intro t
    simp [new, FreeObjectList.init]
  · simp [new, FreeObjectList.init, totalSize, setSizes]

/-- A write to memory that is not free. -/
theorem write_wellFormed (wf : WellFormed R st chains objs 0) {a : Nat} (object : FreeObject)
    (other : ∀ s, s.1 ∈ R → a ∉ objs s) :
    WellFormed R ⟨st.mem.setObject a object, st.list⟩ chains objs 0 := by
  have kept : ∀ s, s.1 ∈ R → ∀ b ∈ objs s, (st.mem.setObject a object).objects b = st.mem.objects b := by
    intro s region b mem
    exact Function.update_of_ne (fun same : b = a => other s region (same ▸ mem)) _ _
  refine ⟨wf.list.congr rfl (fun _ _ _ => ⟨rfl, rfl, rfl⟩) (fun _ _ => rfl), ?_⟩
  refine ⟨?_, ?_, ?_, wf.sets.distinct, wf.sets.apart⟩
  · intro s region
    exact (wf.sets.path s region).congr fun b mem => by rw [kept s region b mem]
  · intro s region
    have same : sizes (st.mem.setObject a object) (objs s) = sizes st.mem (objs s) :=
      sizes_congr fun b mem => by rw [kept s region b mem]
    rw [same]
    exact wf.sets.available s region
  · intro s region b mem
    rw [kept s region b mem]
    exact wf.sets.positive s region b mem

/-- An operation that is permitted returns, and keeps the invariant. -/
theorem op_consistent (ok : Consistent R st) (op : Op ρ) (permitted : op.Permitted R regionOf st) :
    ∃ st', op.Performs regionOf st st' ∧ Consistent R st' := by
  obtain ⟨chains, objs, wf⟩ := ok
  have outside : ∀ {a}, ¬ IsFree R st.mem a → ∀ s : SetId ρ, s.1 ∈ R → a ∉ objs s := by
    intro a notFree s region mem
    exact notFree ((wf.isFree_iff a).mpr ⟨s, region, mem⟩)
  cases op with
  | free start size =>
    obtain ⟨chains', objs', wf', -⟩ := free_wellFormed wf regionOf fun nonzero large =>
      ⟨(permitted nonzero large).1, (permitted nonzero large).2.1, outside (permitted nonzero large).2.2⟩
    exact ⟨_, rfl, chains', objs', wf'⟩
  | allocate size =>
    obtain ⟨st', object, bound, run, ok⟩ := allocate_spec wf size
    exact ⟨st', ⟨object, bound, run⟩, ok⟩
  | addSet s =>
    obtain ⟨region, type, absent⟩ := permitted
    rw [wf.inList_iff] at absent
    obtain ⟨chains', wf', -⟩ := addSet_wellFormed wf region type absent
    exact ⟨_, rfl, chains', objs, wf'⟩
  | removeSet s =>
    have listed := (wf.inList_iff s).mp permitted
    obtain ⟨chains', wf', _⟩ := removeSet_wellFormed wf (Int.le_refl 0) listed
    exact ⟨_, rfl, chains', objs, wf'⟩
  | write a object => exact ⟨_, rfl, chains, objs, write_wellFormed wf object (outside permitted)⟩

/-- An operation has one outcome. -/
theorem Op.Performs.unique {op : Op ρ} {st1 st2 : State ρ} (first : op.Performs regionOf st st1)
    (second : op.Performs regionOf st st2) : st1 = st2 := by
  cases op with
  | allocate size =>
    obtain ⟨object1, bound1, run1⟩ := first
    obtain ⟨object2, bound2, run2⟩ := second
    have same := (run1 (bound1 + bound2 + 1) (by omega)).symm.trans (run2 (bound1 + bound2 + 1) (by omega))
    simp only [Option.some.injEq, Prod.mk.injEq] at same
    exact same.1
  | free start size => exact first.trans second.symm
  | addSet s => exact first.trans second.symm
  | removeSet s => exact first.trans second.symm
  | write a object => exact first.trans second.symm

theorem reached_consistent (start : Start R st) (reached : Relation.ReflTransGen (Step R regionOf) st st') :
    Consistent R st' := by
  induction reached with
  | refl => exact start.consistent
  | tail _ step ih =>
    obtain ⟨op, permitted, performs⟩ := step
    obtain ⟨next, performs', ok⟩ := op_consistent ih op permitted
    rwa [performs.unique performs']

/-! ## The free objects of the list -/

/-- The sets of the list. -/
def allSets (chains : Nat → List (SetId ρ)) : List (SetId ρ) := (List.range numberOfSets).flatMap chains

omit [DecidableEq ρ] in
theorem WellFormed.available_eq (wf : WellFormed R st chains objs 0) :
    st.list.available = sizes st.mem ((allSets chains).flatMap objs) := by
  have sum_flatMap : ∀ l : List (SetId ρ), (∀ s ∈ l, s.1 ∈ R) →
      setSizes st.mem l = sizes st.mem (l.flatMap objs) := by
    intro l
    induction l with
    | nil => exact fun _ => rfl
    | cons s l ih =>
      intro regions
      have rest := ih fun x mem => regions x (List.mem_cons_of_mem s mem)
      have here := wf.sets.available s (regions s List.mem_cons_self)
      simp only [setSizes, sizes, List.flatMap_cons, List.map_cons, List.sum_cons, List.map_append,
        List.sum_append] at rest here ⊢
      omega
  have sum_range : ∀ n, setSizes st.mem ((List.range n).flatMap chains) =
      ∑ t ∈ Finset.range n, setSizes st.mem (chains t) := by
    intro n
    induction n with
    | zero => rfl
    | succ n ih =>
      rw [List.range_succ, List.flatMap_append, setSizes_append, ih, Finset.sum_range_succ]
      simp [setSizes]
  have total := wf.list.available
  have regions : ∀ s ∈ allSets chains, s.1 ∈ R := by
    intro s mem
    obtain ⟨t, _, listed⟩ := List.mem_flatMap.mp mem
    exact (wf.list.typed t s listed).2
  rw [← sum_flatMap _ regions, allSets, sum_range]
  simp only [totalSize] at total
  omega

omit [DecidableEq ρ] in
theorem WellFormed.nodup_objects (wf : WellFormed R st chains objs slack) :
    ((allSets chains).flatMap objs).Nodup := by
  have regions : ∀ s ∈ allSets chains, s.1 ∈ R := by
    intro s mem
    obtain ⟨t, _, listed⟩ := List.mem_flatMap.mp mem
    exact (wf.list.typed t s listed).2
  have distinct : (allSets chains).Nodup := by
    rw [allSets, List.nodup_flatMap]
    refine ⟨fun t _ => (wf.list.linked t).distinct, ?_⟩
    apply List.nodup_range.imp
    intro t t' other s first second
    exact other ((wf.list.typed t s first).1.symm.trans (wf.list.typed t' s second).1)
  rw [List.nodup_flatMap]
  refine ⟨fun s mem => wf.sets.distinct s (regions s mem), ?_⟩
  apply distinct.imp_of_mem
  intro s s' first second other a here there
  exact wf.sets.apart s s' (regions s first) (regions s' second) other a here there

/-- The list is right: its sets are those that have been added, linked in both directions, and it knows its
    available size and the types that it has sets of. -/
structure ListInvariant (R : Set ρ) (st : State ρ) (chains : Nat → List (SetId ρ)) (objs : SetId ρ → List Nat) :
    Prop where
  linked : ∀ t, DoublyLinked (fun s => (st.mem.sets s).next) (fun s => (st.mem.sets s).prev)
    (st.list.sets t) (st.list.lastSets t) (chains t)
  sets : ∀ t s, s ∈ chains t ↔ s.2 = t ∧ t < numberOfSets ∧ s.1 ∈ R ∧ (st.mem.sets s).isAdded = true
  objects : ∀ s, s.1 ∈ R → Path (fun a => (st.mem.objects a).next) (st.mem.sets s).freeObject (objs s) none
  available : st.list.available = sizes st.mem ((allSets chains).flatMap objs)
  bitmap : ∀ t, st.list.noneEmptySetBitMap.getLsbD t = true ↔ st.list.sets t ≠ none
  single : ((allSets chains).flatMap objs).Nodup

omit [DecidableEq ρ] in
theorem WellFormed.listInvariant (wf : WellFormed R st chains objs 0) : ListInvariant R st chains objs where
  linked := wf.list.linked
  sets t s := by
    constructor
    · intro listed
      obtain ⟨type, region⟩ := wf.list.typed t s listed
      exact ⟨type, wf.list.type_lt listed, region, (wf.list.added s region).mpr (wf.list.listed_of listed)⟩
    · rintro ⟨rfl, _, region, added⟩
      exact (wf.list.added s region).mp added
  objects := wf.sets.path
  available := wf.available_eq
  bitmap := wf.list.bitmap
  single := wf.nodup_objects

/-- In every state that the operations reach, the list is right, and every permitted operation returns. -/
theorem freeList_invariant {regionOf : Nat → ρ} (start : Start R st)
    (reached : Relation.ReflTransGen (Step R regionOf) st st') :
    (∃ chains objs, ListInvariant R st' chains objs) ∧
      ∀ op : Op ρ, op.Permitted R regionOf st' → ∃ st'', op.Performs regionOf st' st'' := by
  have ok := reached_consistent start reached
  constructor
  · obtain ⟨chains, objs, wf⟩ := ok
    exact ⟨chains, objs, wf.listInvariant⟩
  · intro op permitted
    obtain ⟨st'', performs, _⟩ := op_consistent ok op permitted
    exact ⟨st'', performs⟩

/-- A new list, in a memory whose blocks all have 32 bytes. -/
def newState : State ρ := ⟨⟨fun _ => ⟨none, 32⟩, fun _ => .init, fun _ => 0⟩, .init⟩

omit [DecidableEq ρ] in
theorem newState_start (R : Set ρ) : Start R newState := by
  refine ⟨rfl, ⟨fun _ => [], ?_, ?_, ?_, ?_, ?_⟩, fun _ _ => rfl⟩
  · exact fun _ _ => rfl
  · exact fun _ _ => rfl
  · exact fun _ _ a mem => absurd mem List.not_mem_nil
  · exact fun _ _ => List.nodup_nil
  · exact fun _ _ _ _ _ a mem => absurd mem List.not_mem_nil

/-- The state once a block of a region is freed. -/
def oneBlock (region : ρ) : State ρ := newState.free (fun _ => region) 64 32 true

theorem oneBlock_step {region : ρ} (inside : region ∈ R) :
    Step R (fun _ => region) newState (oneBlock region) := by
  refine ⟨.free 64 32, fun _ _ => ⟨inside, rfl, ?_⟩, rfl⟩
  rintro ⟨s, _, l, path, mem⟩
  cases path.nil_of_none
  exact absurd mem List.not_mem_nil

theorem oneBlock_inList : InList (oneBlock ()) ((), 2) :=
  ⟨[((), 2)], ⟨rfl, rfl⟩, List.mem_singleton_self _⟩

/-- The set of the block is removed and added again. -/
def readded : State Unit := (((oneBlock ()).removeSet ((), 2)).addSet ((), 2)).1

/-- A block is freed, its set is removed and added again, and the block is allocated. -/
theorem freeList_invariant_reused : ∃ st, Relation.ReflTransGen (Step Set.univ fun _ => ()) newState st ∧
    readded.list.available = 32 ∧ st.list.available = 0 ∧
    (∃ chains objs, ListInvariant Set.univ st chains objs) ∧
      ∀ op : Op Unit, op.Permitted Set.univ (fun _ => ()) st → ∃ st', op.Performs (fun _ => ()) st st' := by
  have removed : Step Set.univ (fun _ => ()) (oneBlock ()) ((oneBlock ()).removeSet ((), 2)) :=
    ⟨.removeSet ((), 2), oneBlock_inList, rfl⟩
  have added : Step Set.univ (fun _ => ()) ((oneBlock ()).removeSet ((), 2)) readded := by
    refine ⟨.addSet ((), 2), ⟨trivial, by decide, ?_⟩, rfl⟩
    rintro ⟨l, path, mem⟩
    cases path.nil_of_none
    exact absurd mem List.not_mem_nil
  let st := ((readded.allocate 3 32).getD (readded, none)).1
  have allocated : Step Set.univ (fun _ => ()) readded st := by
    refine ⟨.allocate 32, trivial, some 64, 2, fun fuel more => ?_⟩
    obtain ⟨n, rfl⟩ : ∃ n, fuel = n + 3 := ⟨fuel - 3, by omega⟩
    rfl
  have run : Relation.ReflTransGen (Step Set.univ fun _ => ()) newState st :=
    (((Relation.ReflTransGen.single (oneBlock_step (Set.mem_univ ()))).tail removed).tail added).tail allocated
  exact ⟨st, run, by decide, rfl, freeList_invariant (newState_start Set.univ) run⟩

end FreeList

end ArkRuntime
