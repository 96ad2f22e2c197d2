import ArkRuntime.FreeList.Run

/-!
# Searching a free list

`Allocate` and `LookupSuitableFreeObject` find the same object: the first that is large enough, by type, set and
place in the set. In a set of a small type all objects have one size, so that its first object stands for the
others; the sets of the other types are searched, and the types below that of the size have smaller objects only.
-/

namespace ArkRuntime

namespace FreeList

variable {ρ : Type}

namespace Memory

variable (mem : Memory ρ)

/-- `LookupSmallFreeObject`. -/
def lookupSmallFreeObject (s : SetId ρ) (size : Nat) : Option Nat :=
  match (mem.sets s).freeObject with
  | none => none
  | some object => if size ≤ (mem.objects object).available then some object else none

/-- The loop of `LookupLargeFreeObject`. -/
def lookupLarge (size : Nat) : Nat → Option Nat → Option (Option Nat)
  | 0, _ => none
  | _ + 1, none => some none
  | fuel + 1, some curFreeObject =>
      if size ≤ (mem.objects curFreeObject).available then some (some curFreeObject)
      else lookupLarge size fuel (mem.objects curFreeObject).next

/-- `LookupLargeFreeObject`. -/
def lookupLargeFreeObject (s : SetId ρ) (size fuel : Nat) : Option (Option Nat) :=
  if (mem.sets s).available < size then some none else mem.lookupLarge size fuel (mem.sets s).freeObject

/-- The object that `LookupSuitableFreeObject` finds in a set of the type `t`. -/
def lookupFreeObject (t : Nat) (s : SetId ρ) (size fuel : Nat) : Option (Option Nat) :=
  if t ≤ smallSetMaxIndex then some (mem.lookupSmallFreeObject s size) else mem.lookupLargeFreeObject s size fuel

end Memory

namespace State

variable (st : State ρ)

/-- The inner loop of `LookupSuitableFreeObject` over the sets of a type. -/
def lookupInSets (size t : Nat) : Nat → Option (SetId ρ) → Option (Option Nat)
  | 0, _ => none
  | _ + 1, none => some none
  | fuel + 1, some current => do
      let next := if t ≤ smallSetMaxIndex then none else (st.mem.sets current).next
      match ← st.mem.lookupFreeObject t current size fuel with
      | some object => return some object
      | none => lookupInSets size t fuel next

/-- The outer loop of `LookupSuitableFreeObject` over the types. -/
def lookupFrom (size fuel : Nat) : Nat → Int → Int → Option (Option Nat)
  | 0, _, _ => none
  | rounds + 1, t, lastType =>
      if lastType < t ∧ t < numberOfSets then do
        match ← st.lookupInSets size t.toNat fuel (st.list.sets t.toNat) with
        | some object => return some object
        | none => lookupFrom size fuel rounds (st.list.calcNextNoneEmptyIndex (t.toNat + 1)) t
      else some none

/-- `LookupSuitableFreeObject`: the object, or null. -/
def lookupSuitableFreeObject (fuel size : Nat) : Option (Option Nat) :=
  if st.list.noneEmptySetBitMap = 0 then some none
  else
    match selectSetType size with
    | none => some none
    | some t => st.lookupFrom size fuel (numberOfSets + 1) (st.list.calcNextNoneEmptyIndex t) (t - 1)

end State

/-! ## Types of sizes -/

theorem selectSetType_cases {size t : Nat} (select : selectSetType size = some t) :
    (16 ≤ size ∧ size < 256 ∧ t = size / 8 - 2) ∨ (256 ≤ size ∧ size < 65536 ∧ t = size.log2 + 22) ∨
      (65536 ≤ size ∧ size < 261120 ∧ t = 37) ∨ (261120 ≤ size ∧ t = 38) := by
  have le := minSize_le_of_select select
  rw [minSize] at le
  unfold selectSetType numberOfSets minSize at select
  split_ifs at select with small tiny large huge
  · have := Option.some.inj select
    omega
  · have := Option.some.inj select
    omega
  · have := Option.some.inj select
    omega
  · have := Option.some.inj select
    omega

theorem log2_bounds {n : Nat} (low : 256 ≤ n) (high : n < 65536) : 8 ≤ n.log2 ∧ n.log2 < 16 :=
  ⟨(Nat.le_log2 (by omega)).mpr low, (Nat.log2_lt (by omega)).mpr high⟩

theorem selectSetType_mono {size size' t t' : Nat} (le : size ≤ size') (select : selectSetType size = some t)
    (select' : selectSetType size' = some t') : t ≤ t' := by
  rcases selectSetType_cases select with first | first | first | first <;>
    rcases selectSetType_cases select' with second | second | second | second
  case inr.inl.inr.inl =>
    have below := Nat.le_trans (Nat.log2_self_le (by omega : size ≠ 0)) le
    have logs := (Nat.le_log2 (by omega)).mpr below
    omega
  all_goals
    have bounds := fun low high => log2_bounds (n := size) low high
    have bounds' := fun low high => log2_bounds (n := size') low high
    omega

/-- The aligned sizes of a small type are one. -/
theorem selectSetType_small {size size' t t' : Nat} (select : selectSetType size = some t)
    (select' : selectSetType size' = some t') (le : t ≤ t') (small : t' ≤ smallSetMaxIndex)
    (aligned : 8 ∣ size) (aligned' : 8 ∣ size') : size ≤ size' := by
  have first := selectSetType_cases select
  have second := selectSetType_cases select'
  have bounds := fun low high => log2_bounds (n := size) low high
  have bounds' := fun low high => log2_bounds (n := size') low high
  unfold smallSetMaxIndex at small
  omega

/-! ## Searching a set -/

variable {R : Set ρ} {mem mem' : Memory ρ} {objs : SetId ρ → List Nat} {s : SetId ρ} {size : Nat}

/-- The object is large enough. -/
def fits (mem : Memory ρ) (size a : Nat) : Bool := size ≤ (mem.objects a).available

theorem sizes_le {l : List Nat} {a : Nat} (inside : a ∈ l) : (mem.objects a).available ≤ sizes mem l :=
  List.single_le_sum (by simp) _ (List.mem_map_of_mem inside)

theorem find_of_available_lt (ok : SetsOk R mem objs) (region : s.1 ∈ R) (little : (mem.sets s).available < size) :
    (objs s).find? (fits mem size) = none := by
  rw [List.find?_eq_none]
  intro a inside
  have le : _ ≤ sizes mem _ := sizes_le inside
  rw [← ok.available s region] at le
  simp only [fits, decide_eq_true_eq]
  omega

/-- Both loops over the objects of a set stop at the first that is large enough. -/
theorem searchLarge_spec [DecidableEq ρ] {prev cur : Option Nat} {bs : List Nat}
    (path : Path (fun a => (mem.objects a).next) cur bs none) {fuel : Nat} (enough : bs.length < fuel) :
    mem.lookupLarge size fuel cur = some (bs.find? (fits mem size)) ∧
      ∃ mem', mem.obtainLarge s size fuel prev cur = some (mem', bs.find? (fits mem size)) ∧
        (bs.find? (fits mem size) = none → mem' = mem) := by
  induction bs generalizing prev cur fuel with
  | nil =>
    obtain ⟨fuel, rfl⟩ := Nat.exists_eq_add_of_lt enough
    cases (show cur = none from path)
    exact ⟨rfl, mem, rfl, fun _ => rfl⟩
  | cons object bs ih =>
    obtain ⟨fuel, rfl⟩ := Nat.exists_eq_add_of_lt enough
    obtain ⟨rfl, rest⟩ := path
    rw [Memory.lookupLarge, Memory.obtainLarge]
    by_cases large : size ≤ (mem.objects object).available
    · rw [if_pos large, if_pos large, List.find?_cons_of_pos (by simpa [fits] using large)]
      exact ⟨rfl, _, rfl, fun none => (by cases none)⟩
    · rw [if_neg large, if_neg large, List.find?_cons_of_neg (by simpa [fits] using large)]
      exact ih rest (by simp only [List.length_cons]; omega)

/-- What is known of the sets of a type: small ones have objects, all of them large enough. -/
def Ready (mem : Memory ρ) (objs : SetId ρ → List Nat) (size t : Nat) (s : SetId ρ) : Prop :=
  t ≤ smallSetMaxIndex → objs s ≠ [] ∧ ∀ a ∈ objs s, size ≤ (mem.objects a).available

/-- The first object of a small set is the first that is large enough. -/
theorem Ready.first (ok : SetsOk R mem objs) (region : s.1 ∈ R) {t : Nat} (ready : Ready mem objs size t s)
    (small : t ≤ smallSetMaxIndex) : ∃ a, (mem.sets s).freeObject = some a ∧ size ≤ (mem.objects a).available ∧
      (objs s).find? (fits mem size) = some a := by
  obtain ⟨nonempty, large⟩ := ready small
  have path := ok.path s region
  cases all : objs s with
  | nil => exact absurd all nonempty
  | cons a bs =>
    rw [all] at path
    have here := large a (by rw [all]; exact List.mem_cons_self)
    exact ⟨a, path.1, here, List.find?_cons_of_pos (by simpa [fits] using here)⟩

theorem searchFreeObject_spec [DecidableEq ρ] (ok : SetsOk R mem objs) (region : s.1 ∈ R) {t fuel : Nat}
    (ready : Ready mem objs size t s) (enough : (objs s).length < fuel) :
    mem.lookupFreeObject t s size fuel = some ((objs s).find? (fits mem size)) ∧
      ∃ mem', mem.obtainFreeObject t s size fuel = some (mem', (objs s).find? (fits mem size)) ∧
        ((objs s).find? (fits mem size) = none → mem' = mem) := by
  rw [Memory.lookupFreeObject, Memory.obtainFreeObject]
  by_cases small : t ≤ smallSetMaxIndex
  · obtain ⟨a, first, large, found⟩ := ready.first ok region small
    rw [if_pos small, if_pos small, Memory.lookupSmallFreeObject, Memory.obtainSmallFreeObject, first, found]
    simp only [if_pos large]
    exact ⟨trivial, _, rfl, fun none => (by cases none)⟩
  · obtain ⟨looked, obtained⟩ := searchLarge_spec (ok.path s region) enough
    rw [if_neg small, if_neg small, Memory.lookupLargeFreeObject, Memory.obtainLargeFreeObject]
    refine ⟨?_, obtained⟩
    by_cases little : (mem.sets s).available < size
    · rw [if_pos little, find_of_available_lt ok region little]
    · rw [if_neg little, looked]

/-! ## Searching the sets of a type -/

variable {st : State ρ} {bs : List (SetId ρ)} {current : Option (SetId ρ)} {t fuel : Nat}

theorem searchInSets_spec [DecidableEq ρ] (ok : SetsOk R st.mem objs) (positive : 0 < size)
    (regions : ∀ s ∈ bs, s.1 ∈ R) (ready : ∀ s ∈ bs, Ready st.mem objs size t s)
    (path : Path (fun s => (st.mem.sets s).next) current bs none) (enough : stepBound objs bs < fuel) :
    st.lookupInSets size t fuel current = some ((bs.flatMap objs).find? (fits st.mem size)) ∧
      ∃ st', State.allocateInSets size t fuel current st =
          some (st', (bs.flatMap objs).find? (fits st.mem size)) ∧
        ((bs.flatMap objs).find? (fits st.mem size) = none → st' = st) := by
  induction bs generalizing current fuel with
  | nil =>
    obtain ⟨fuel, rfl⟩ := Nat.exists_eq_add_of_lt enough
    cases (show current = none from path)
    exact ⟨rfl, st, rfl, fun _ => rfl⟩
  | cons s bs ih =>
    obtain ⟨fuel, rfl⟩ := Nat.exists_eq_add_of_lt enough
    obtain ⟨rfl, rest⟩ := path
    have region := regions s List.mem_cons_self
    have here := ready s List.mem_cons_self
    have bound : stepBound objs (s :: bs) = (objs s).length + 1 + stepBound objs bs := by
      simp [stepBound]
    obtain ⟨looked, later⟩ := ih (fun s mem => regions s (by simp [mem])) (fun s mem => ready s (by simp [mem])) rest
      (show stepBound objs bs < stepBound objs (s :: bs) + fuel by omega)
    obtain ⟨looked', mem', obtained, unchanged⟩ := searchFreeObject_spec ok region here
      (show (objs s).length < stepBound objs (s :: bs) + fuel by omega)
    rw [State.lookupInSets, State.allocateInSets, List.flatMap_cons, List.find?_append, looked']
    cases found : (objs s).find? (fits st.mem size) with
    | some a =>
      have room : ¬(st.mem.sets s).available < size := by
        intro little
        rw [find_of_available_lt ok region little] at found
        cases found
      rw [if_neg room, obtained, found]
      exact ⟨rfl, _, rfl, fun none => (by cases none)⟩
    | none =>
      cases unchanged found
      have large : ¬t ≤ smallSetMaxIndex := by
        intro small
        obtain ⟨a, -, -, some⟩ := here.first ok region small
        rw [found] at some
        cases some
      rw [if_neg large]
      refine ⟨looked, ?_⟩
      by_cases little : (st.mem.sets s).available < size
      · rw [if_pos little]
        exact later
      · rw [if_neg little, obtained, found]
        simp only [Option.bind_eq_bind, Option.bind_some, if_neg (show ¬(st.mem.sets s).available = 0 by omega),
          if_neg large]
        exact later

/-! ## Searching the types -/

/-- The sets of the types from `start` on. -/
def setsFrom (chains : Nat → List (SetId ρ)) (start : Nat) : List (SetId ρ) :=
  (List.range' start (numberOfSets - start)).flatMap chains

variable {chains : Nat → List (SetId ρ)} {start : Nat}

theorem mem_setsFrom : s ∈ setsFrom chains start ↔ ∃ t, start ≤ t ∧ t < numberOfSets ∧ s ∈ chains t := by
  rw [setsFrom, List.mem_flatMap]
  constructor
  · rintro ⟨t, inside, here⟩
    rw [List.mem_range'_1] at inside
    exact ⟨t, inside.1, by omega, here⟩
  · rintro ⟨t, above, below, here⟩
    exact ⟨t, List.mem_range'_1.mpr (by omega), here⟩

/-- Types without sets are passed over. -/
theorem setsFrom_skip {n : Nat} (le : start ≤ n) (below : n < numberOfSets)
    (empty : ∀ t, start ≤ t → t < n → chains t = []) :
    setsFrom chains start = chains n ++ setsFrom chains (n + 1) := by
  obtain ⟨k, rfl⟩ := Nat.exists_eq_add_of_le le
  have whole : numberOfSets - start = k + (numberOfSets - (start + k + 1) + 1) := by omega
  rw [setsFrom, whole, ← List.range'_append_1, List.range'_succ, List.flatMap_append, List.flatMap_cons]
  have none : (List.range' start k).flatMap chains = [] := by
    rw [List.flatMap_eq_nil_iff]
    intro t inside
    rw [List.mem_range'_1] at inside
    exact empty t inside.1 inside.2
  rw [none]
  rfl

theorem bit_iff (ok : ListOk R st chains 0) (t : Nat) :
    st.list.noneEmptySetBitMap.getLsbD t = true ↔ chains t ≠ [] := by
  rw [ok.bitmap, (ok.linked t).head_eq, ne_eq, List.head?_eq_none_iff]

/-- `CalcNextNoneEmptyIndex` gives the next type that has sets, or ends the loop. -/
theorem calcNextNoneEmptyIndex_spec (ok : ListOk R st chains 0) (start : Nat) :
    (st.list.calcNextNoneEmptyIndex start = (start : Int) - 1 ∧ setsFrom chains start = []) ∨
      ∃ n : Nat, st.list.calcNextNoneEmptyIndex start = n ∧ start ≤ n ∧ n < numberOfSets ∧
        setsFrom chains start = chains n ++ setsFrom chains (n + 1) := by
  rw [FreeObjectList.calcNextNoneEmptyIndex, ffsll]
  have bit (i : Nat) : (st.list.noneEmptySetBitMap >>> start).getLsbD i = true ↔ chains (start + i) ≠ [] := by
    rw [BitVec.getLsbD_ushiftRight]
    exact bit_iff ok (start + i)
  cases found : (List.range 64).find? fun i => (st.list.noneEmptySetBitMap >>> start).getLsbD i with
  | none =>
    refine .inl ⟨by simp, ?_⟩
    rw [List.find?_eq_none] at found
    rw [List.eq_nil_iff_forall_not_mem]
    intro s inside
    obtain ⟨t, above, below, here⟩ := mem_setsFrom.mp inside
    have off := found (t - start) (List.mem_range.mpr (by unfold numberOfSets at below; omega))
    rw [bit, Nat.add_sub_cancel' above] at off
    exact off (List.ne_nil_of_mem here)
  | some i =>
    obtain ⟨on, -, first⟩ := List.find?_range_eq_some.mp found
    have below : start + i < numberOfSets := by
      by_contra far
      exact (bit i).mp on (ok.bound _ (by omega))
    refine .inr ⟨start + i, by push_cast; omega, by omega, below, setsFrom_skip (by omega) below ?_⟩
    intro t above under
    have off := first (t - start) (by omega)
    rw [Bool.not_eq_true', ← Bool.not_eq_true, bit, Nat.add_sub_cancel' above, not_not] at off
    exact off

/-- The steps suffice for the sets of every type. -/
def Enough (chains : Nat → List (SetId ρ)) (objs : SetId ρ → List Nat) (fuel : Nat) : Prop :=
  ∀ t, stepBound objs (chains t) < fuel

theorem ListOk.exists_enough (ok : ListOk R st chains 0) (objs : SetId ρ → List Nat) :
    ∃ bound, ∀ fuel, bound < fuel → Enough chains objs fuel := by
  refine ⟨((List.range numberOfSets).map fun t => stepBound objs (chains t)).sum, fun fuel more t => ?_⟩
  refine Nat.lt_of_le_of_lt ?_ more
  by_cases below : t < numberOfSets
  · exact List.single_le_sum (by simp) _
      (List.mem_map.mpr ⟨t, List.mem_range.mpr below, rfl⟩)
  · rw [ok.bound t (Nat.le_of_not_lt below)]
    exact Nat.zero_le _

theorem searchFrom_spec [DecidableEq ρ] (list : ListOk R st chains 0) (sets : SetsOk R st.mem objs)
    (positive : 0 < size) (ready : ∀ t, start ≤ t → ∀ s ∈ chains t, Ready st.mem objs size t s)
    (enough : Enough chains objs fuel) {rounds : Nat} (more : numberOfSets < rounds + start) (nonzero : 0 < rounds) :
    st.lookupFrom size fuel rounds (st.list.calcNextNoneEmptyIndex start) ((start : Int) - 1) =
        some (((setsFrom chains start).flatMap objs).find? (fits st.mem size)) ∧
      ∃ st', State.allocateFrom size fuel rounds (st.list.calcNextNoneEmptyIndex start) ((start : Int) - 1) st =
        some (st', ((setsFrom chains start).flatMap objs).find? (fits st.mem size)) := by
  induction rounds generalizing start with
  | zero => omega
  | succ rounds ih =>
    rw [State.lookupFrom, State.allocateFrom]
    obtain ⟨is, empty⟩ | ⟨n, is, above, below, next⟩ := calcNextNoneEmptyIndex_spec list start
    · rw [is, if_neg (by omega), if_neg (by omega), empty]
      exact ⟨rfl, st, rfl⟩
    · obtain ⟨looked, st', run, unchanged⟩ := searchInSets_spec sets positive (fun s mem => (list.typed n s mem).2)
        (ready n above) (list.linked n).forward (enough n)
      rw [is, if_pos ⟨by omega, by omega⟩, if_pos ⟨by omega, by omega⟩, Int.toNat_natCast, looked, run, next,
        List.flatMap_append, List.find?_append]
      cases found : ((chains n).flatMap objs).find? (fits st.mem size) with
      | some a => exact ⟨rfl, st', rfl⟩
      | none =>
        cases unchanged found
        have rest := ih (fun t (later : n + 1 ≤ t) => ready t (by omega)) (by omega) (by omega)
        rw [show ((n + 1 : Nat) : Int) - 1 = n by omega] at rest
        exact rest

/-! ## The objects of a list -/

/-- A list whose objects were put in by `Free` with aligned sizes: each is in a set of the type of its size, and a
    set without objects is in no list. -/
structure Stocked (R : Set ρ) (st : State ρ) (chains : Nat → List (SetId ρ)) (objs : SetId ρ → List Nat) :
    Prop where
  list : ListOk R st chains 0
  sets : SetsOk R st.mem objs
  nonempty : ∀ t, ∀ s ∈ chains t, objs s ≠ []
  freed : ∀ s, s.1 ∈ R → ∀ a ∈ objs s,
    selectSetType (st.mem.objects a).available = some s.2 ∧ 8 ∣ (st.mem.objects a).available

/-- `Free` of a block of an aligned size. -/
theorem Stocked.free [DecidableEq ρ] (ok : Stocked R st chains objs) (regionOf : Nat → ρ) {start : Nat}
    (aligned : 8 ∣ size) (block : start ≠ 0 → minSize ≤ size → regionOf start ∈ R ∧
      (st.mem.objects start).available = size ∧ ∀ s, s.1 ∈ R → start ∉ objs s) :
    ∃ chains' objs', Stocked R (st.free regionOf start size true) chains' objs' := by
  obtain ⟨chains', objs', wf, freed⟩ := free_wellFormed ⟨ok.list, ok.sets⟩ regionOf block
  refine ⟨chains', objs', wf.list, wf.sets, fun t s listed => ?_, fun s region a inside => ?_⟩
  · rcases freed.listed t s listed with old | new
    · obtain ⟨a, inside⟩ := List.exists_mem_of_ne_nil _ (ok.nonempty t s old)
      exact List.ne_nil_of_mem (freed.kept s a inside)
    · exact List.ne_nil_of_mem new
  · rw [freed.sizes]
    rcases freed.added s a inside with old | ⟨-, is, select⟩
    · exact ok.freed s region a old
    · rw [is]
      exact ⟨select, aligned⟩

theorem Stocked.wellFormed (ok : Stocked R st chains objs) : WellFormed R st chains objs 0 := ⟨ok.list, ok.sets⟩

theorem Stocked.ready (ok : Stocked R st chains objs) (aligned : 8 ∣ size) (select : selectSetType size = some t)
    {t' : Nat} (above : t ≤ t') (listed : s ∈ chains t') : Ready st.mem objs size t' s := by
  obtain ⟨rfl, region⟩ := ok.list.typed t' s listed
  intro small
  refine ⟨ok.nonempty _ s listed, fun a inside => ?_⟩
  obtain ⟨type, aligned'⟩ := ok.freed s region a inside
  exact selectSetType_small select type above small aligned aligned'

/-- An object that is large enough is in a set of the types that are searched. -/
theorem Stocked.searched_iff (ok : Stocked R st chains objs) (select : selectSetType size = some t) :
    (∃ a, HasObject st a ∧ size ≤ (st.mem.objects a).available) ↔
      ((setsFrom chains t).flatMap objs).find? (fits st.mem size) ≠ none := by
  rw [ne_eq, List.find?_eq_none, not_forall]
  constructor
  · rintro ⟨a, held, large⟩
    obtain ⟨s, listed, inside⟩ := (ok.wellFormed.hasObject_iff a).mp held
    have region := (ok.list.typed s.2 s listed).2
    have above := selectSetType_mono large select (ok.freed s region a inside).1
    have here := mem_setsFrom.mpr ⟨s.2, above, ok.list.type_lt listed, listed⟩
    exact ⟨a, fun small => small (List.mem_flatMap.mpr ⟨s, here, inside⟩) (by simpa [fits] using large)⟩
  · rintro ⟨a, found⟩
    rw [Classical.not_imp, not_not] at found
    obtain ⟨s, here, inside⟩ := List.mem_flatMap.mp found.1
    obtain ⟨t', -, -, listed⟩ := mem_setsFrom.mp here
    obtain ⟨rfl, -⟩ := ok.list.typed t' s listed
    exact ⟨a, (ok.wellFormed.hasObject_iff a).mpr ⟨s, listed, inside⟩, by simpa [fits] using found.2⟩

/-- `Allocate` and `LookupSuitableFreeObject` end with the same object, which is large enough, and with none only if
    the list holds none. -/
theorem allocate_lookup_find [DecidableEq ρ] (st : State ρ) (ok : ∃ chains objs, Stocked R st chains objs)
    (aligned : 8 ∣ size) (le : minSize ≤ size) :
    ∃ bound, ∀ fuel, bound < fuel → ∃ st' object, st.allocate fuel size = some (st', object) ∧
      st.lookupSuitableFreeObject fuel size = some object ∧
      (object ≠ none ↔ ∃ a, HasObject st a ∧ size ≤ (st.mem.objects a).available) ∧
      ∀ a, object = some a → HasObject st a ∧ size ≤ (st.mem.objects a).available := by
  obtain ⟨chains, objs, ok⟩ := ok
  obtain ⟨bound, enough⟩ := ok.list.exists_enough objs
  obtain ⟨t, select⟩ := selectSetType_of_le le
  have positive : 0 < size := by unfold minSize at le; omega
  have ready (t' : Nat) (above : t ≤ t') (s : SetId ρ) (listed : s ∈ chains t') : Ready st.mem objs size t' s :=
    ok.ready aligned select above listed
  refine ⟨bound, fun fuel more => ?_⟩
  have searched : ∃ st', st.allocate fuel size =
        some (st', ((setsFrom chains t).flatMap objs).find? (fits st.mem size)) ∧
      st.lookupSuitableFreeObject fuel size = some (((setsFrom chains t).flatMap objs).find? (fits st.mem size)) := by
    rw [State.allocate, State.lookupSuitableFreeObject]
    by_cases none : st.list.noneEmptySetBitMap = 0
    · have empty : setsFrom chains t = [] := by
        rw [List.eq_nil_iff_forall_not_mem]
        intro s inside
        obtain ⟨t', -, -, listed⟩ := mem_setsFrom.mp inside
        have bit := (bit_iff ok.list t').mpr (List.ne_nil_of_mem listed)
        rw [none] at bit
        simp at bit
      rw [if_pos none, if_pos none, empty]
      exact ⟨st, rfl, rfl⟩
    · rw [if_neg none, if_neg none, select]
      obtain ⟨looked, st', run⟩ := searchFrom_spec ok.list ok.sets positive ready (enough _ more)
        (show numberOfSets < numberOfSets + 1 + t by omega) (by omega)
      exact ⟨st', run, looked⟩
  obtain ⟨st', allocated, looked⟩ := searched
  refine ⟨st', _, allocated, looked, (ok.searched_iff select).symm, fun a found => ?_⟩
  obtain ⟨s, here, inside⟩ := List.mem_flatMap.mp (List.mem_of_find?_eq_some found)
  obtain ⟨t', -, -, listed⟩ := mem_setsFrom.mp here
  obtain ⟨rfl, -⟩ := ok.list.typed t' s listed
  have large := List.find?_some found
  exact ⟨(ok.wellFormed.hasObject_iff a).mpr ⟨s, listed, inside⟩, by simpa [fits] using large⟩

theorem newState_stocked (R : Set ρ) : Stocked R newState (fun _ => []) fun _ => [] where
  list := ⟨fun _ => DoublyLinked.nil, nofun, fun _ _ => rfl, fun _ _ => by simp [newState, FreeObjectSet.init],
    by simp [newState, FreeObjectList.init], by simp [newState, FreeObjectList.init, totalSize, setSizes]⟩
  sets := ⟨fun _ _ => rfl, fun _ _ => rfl, nofun, fun _ _ => List.nodup_nil, nofun⟩
  nonempty := nofun
  freed := nofun

theorem allocate_lookup_find_block : 8 ∣ 16 ∧ minSize ≤ 16 ∧
    ∃ bound, ∀ fuel, bound < fuel → ∃ st' object, (oneBlock ()).allocate fuel 16 = some (st', object) ∧
      (oneBlock ()).lookupSuitableFreeObject fuel 16 = some object ∧
      (object ≠ none ↔ ∃ a, HasObject (oneBlock ()) a ∧ 16 ≤ ((oneBlock ()).mem.objects a).available) ∧
      ∀ a, object = some a → HasObject (oneBlock ()) a ∧ 16 ≤ ((oneBlock ()).mem.objects a).available :=
  ⟨by decide, by decide, allocate_lookup_find (R := Set.univ) (oneBlock ())
    ((newState_stocked _).free _ (by decide) fun _ _ => ⟨trivial, rfl, nofun⟩) (by decide) (by decide)⟩

end FreeList

end ArkRuntime
