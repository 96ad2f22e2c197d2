import ArkRuntime.FreeList.Model
import ArkRuntime.Misc.LinkedPath

/-!
# The free objects of the sets

What the operations of `FreeObjectSet` do to the objects of the sets: `objs s` are the objects of the set `s`,
linked from its first one, and the available size of a set is the sum of theirs.
-/

namespace ArkRuntime

namespace FreeList

variable {ρ : Type}

namespace Memory

variable [DecidableEq ρ] (mem : Memory ρ)

@[simp] theorem setSet_objects (s : SetId ρ) (set : FreeObjectSet ρ) : (mem.setSet s set).objects = mem.objects := rfl

theorem setSet_sets (s x : SetId ρ) (set : FreeObjectSet ρ) :
    (mem.setSet s set).sets x = if x = s then set else mem.sets x := Function.update_apply _ _ _ _

@[simp] theorem setSet_self (s : SetId ρ) (set : FreeObjectSet ρ) : (mem.setSet s set).sets s = set :=
  Function.update_self _ _ _

theorem setSet_of_ne {s x : SetId ρ} (other : x ≠ s) (set : FreeObjectSet ρ) :
    (mem.setSet s set).sets x = mem.sets x := Function.update_of_ne other _ _

omit [DecidableEq ρ] in
@[simp] theorem setObjectNext_sets (a : Nat) (next : Option Nat) : (mem.setObjectNext a next).sets = mem.sets := rfl

omit [DecidableEq ρ] in
@[simp] theorem setObjectNext_available (a x : Nat) (next : Option Nat) :
    ((mem.setObjectNext a next).objects x).available = (mem.objects x).available := by
  by_cases same : x = a
  · subst same
    simp [setObjectNext, setObject]
  · simp [setObjectNext, setObject, Function.update_of_ne same]

omit [DecidableEq ρ] in
@[simp] theorem setObjectNext_self (a : Nat) (next : Option Nat) :
    ((mem.setObjectNext a next).objects a).next = next := by
  simp [setObjectNext, setObject]

omit [DecidableEq ρ] in
theorem setObjectNext_of_ne {a x : Nat} (other : x ≠ a) (next : Option Nat) :
    ((mem.setObjectNext a next).objects x).next = (mem.objects x).next := by
  simp [setObjectNext, setObject, Function.update_of_ne other]

end Memory

/-- The sizes of objects in sum. -/
def sizes (mem : Memory ρ) (l : List Nat) : Nat := (l.map fun a => (mem.objects a).available).sum

/-- The sets of the regions `R` have the objects `objs`. -/
structure SetsOk (R : Set ρ) (mem : Memory ρ) (objs : SetId ρ → List Nat) : Prop where
  path : ∀ s, s.1 ∈ R → Path (fun a => (mem.objects a).next) (mem.sets s).freeObject (objs s) none
  available : ∀ s, s.1 ∈ R → (mem.sets s).available = sizes mem (objs s)
  positive : ∀ s, s.1 ∈ R → ∀ a ∈ objs s, 0 < (mem.objects a).available
  distinct : ∀ s, s.1 ∈ R → (objs s).Nodup
  apart : ∀ s s', s.1 ∈ R → s'.1 ∈ R → s ≠ s' → ∀ a ∈ objs s, a ∉ objs s'

variable {R : Set ρ} {mem mem' : Memory ρ} {objs : SetId ρ → List Nat} {s : SetId ρ}

theorem sizes_congr {l : List Nat} (agree : ∀ a ∈ l, (mem'.objects a).available = (mem.objects a).available) :
    sizes mem' l = sizes mem l := by
  rw [sizes, sizes, List.map_congr_left agree]

namespace SetsOk

theorem congr (ok : SetsOk R mem objs) (objects : mem'.objects = mem.objects)
    (first : ∀ s, s.1 ∈ R → (mem'.sets s).freeObject = (mem.sets s).freeObject)
    (size : ∀ s, s.1 ∈ R → (mem'.sets s).available = (mem.sets s).available) : SetsOk R mem' objs where
  path s region := by
    rw [objects, first s region]
    exact ok.path s region
  available s region := by
    rw [size s region, ok.available s region, sizes, sizes, objects]
  positive s region a mem := by
    rw [objects]
    exact ok.positive s region a mem
  distinct := ok.distinct
  apart := ok.apart

theorem available_eq_zero_iff (ok : SetsOk R mem objs) (region : s.1 ∈ R) :
    (mem.sets s).available = 0 ↔ objs s = [] := by
  rw [ok.available s region]
  constructor
  · intro zero
    cases empty : objs s with
    | nil => rfl
    | cons a l =>
      have positive := ok.positive s region a (by rw [empty]; exact List.mem_cons_self)
      rw [empty, sizes, List.map_cons, List.sum_cons] at zero
      omega
  · intro empty
    rw [empty]
    rfl

variable [DecidableEq ρ]

/-- The objects of one set are changed. -/
theorem update (ok : SetsOk R mem objs) (region : s.1 ∈ R) {l : List Nat}
    (sizesKept : ∀ a, (mem'.objects a).available = (mem.objects a).available)
    (others : ∀ s', s'.1 ∈ R → s' ≠ s → mem'.sets s' = mem.sets s')
    (outside : ∀ s', s'.1 ∈ R → s' ≠ s → ∀ a ∈ objs s', (mem'.objects a).next = (mem.objects a).next)
    (path : Path (fun a => (mem'.objects a).next) (mem'.sets s).freeObject l none)
    (available : (mem'.sets s).available = sizes mem l)
    (positive : ∀ a ∈ l, 0 < (mem.objects a).available) (distinct : l.Nodup)
    (apart : ∀ s', s'.1 ∈ R → s' ≠ s → ∀ a ∈ l, a ∉ objs s') :
    SetsOk R mem' (Function.update objs s l) where
  path s' region' := by
    by_cases same : s' = s
    · subst same
      rwa [Function.update_self]
    · rw [Function.update_of_ne same, others s' region' same]
      exact (ok.path s' region').congr (outside s' region' same)
  available s' region' := by
    rw [sizes_congr fun a _ => sizesKept a]
    by_cases same : s' = s
    · subst same
      rwa [Function.update_self]
    · rw [Function.update_of_ne same, others s' region' same]
      exact ok.available s' region'
  positive s' region' a mem := by
    rw [sizesKept]
    by_cases same : s' = s
    · subst same
      rw [Function.update_self] at mem
      exact positive a mem
    · rw [Function.update_of_ne same] at mem
      exact ok.positive s' region' a mem
  distinct s' region' := by
    by_cases same : s' = s
    · subst same
      rwa [Function.update_self]
    · rw [Function.update_of_ne same]
      exact ok.distinct s' region'
  apart s1 s2 region1 region2 other a mem := by
    by_cases first : s1 = s
    · subst first
      rw [Function.update_self] at mem
      rw [Function.update_of_ne (Ne.symm other)]
      exact apart s2 region2 (Ne.symm other) a mem
    · rw [Function.update_of_ne first] at mem
      by_cases second : s2 = s
      · subst second
        rw [Function.update_self]
        exact fun there => apart s1 region1 other a there mem
      · rw [Function.update_of_ne second]
        exact ok.apart s1 s2 region1 region2 other a mem

/-- A free object is put into a set. -/
theorem free (ok : SetsOk R mem objs) (region : s.1 ∈ R) {start size : Nat}
    (fresh : ∀ s', s'.1 ∈ R → start ∉ objs s') (is : (mem.objects start).available = size)
    (positive : 0 < size) :
    SetsOk R (mem.free s start size) (Function.update objs s (start :: objs s)) := by
  have other : ∀ s', s'.1 ∈ R → ∀ a ∈ objs s', a ≠ start := fun s' region' a mem same =>
    fresh s' region' (same ▸ mem)
  apply ok.update region
  · intro a
    simp [Memory.free]
  · intro s' _ different
    simp [Memory.free, Memory.setSet_of_ne _ different]
  · intro s' region' _ a mem
    simp [Memory.free, Memory.setObjectNext_of_ne _ (other s' region' a mem)]
  · have first : ((mem.free s start size).sets s).freeObject = some start := by simp [Memory.free]
    rw [first]
    refine (ok.path s region).cons ?_ ?_
    · intro a mem
      simp [Memory.free, Memory.setObjectNext_of_ne _ (other s region a mem)]
    · simp [Memory.free]
  · simp [Memory.free, sizes, ok.available s region, is, Nat.add_comm]
  · intro a mem
    rcases List.mem_cons.mp mem with rfl | mem
    · omega
    · exact ok.positive s region a mem
  · exact List.nodup_cons.mpr ⟨fresh s region, ok.distinct s region⟩
  · intro s' region' different a mem
    rcases List.mem_cons.mp mem with rfl | mem
    · exact fresh s' region'
    · exact ok.apart s s' region region' (Ne.symm different) a mem

/-- A free object is taken out of a set. -/
theorem takeOut (ok : SetsOk R mem objs) (region : s.1 ∈ R) {as bs : List Nat} {object : Nat}
    (split : objs s = as ++ object :: bs)
    (sizesKept : ∀ a, (mem'.objects a).available = (mem.objects a).available)
    (last : ∀ y, as.getLast? = some y → (mem'.objects y).next = (mem.objects object).next)
    (agree : ∀ y, y ≠ object → as.getLast? ≠ some y → (mem'.objects y).next = (mem.objects y).next)
    (others : ∀ s', s'.1 ∈ R → s' ≠ s → mem'.sets s' = mem.sets s')
    (first : (mem'.sets s).freeObject = if as = [] then (mem.objects object).next else (mem.sets s).freeObject)
    (available : (mem'.sets s).available = (mem.sets s).available - (mem.objects object).available) :
    SetsOk R mem' (Function.update objs s (as ++ bs)) := by
  have distinct := ok.distinct s region
  have path := ok.path s region
  rw [split] at distinct path
  have sub : ∀ a ∈ as ++ bs, a ∈ objs s := by
    intro a mem
    rw [split]
    rcases List.mem_append.mp mem with front | back
    · exact List.mem_append_left _ front
    · exact List.mem_append_right _ (List.mem_cons_of_mem _ back)
  have out : ∀ a ∈ as ++ bs, a ≠ object := by
    rintro a mem rfl
    have fresh := (List.nodup_cons.mp (List.perm_middle.nodup_iff.mp distinct)).1
    exact fresh mem
  have inside : object ∈ objs s := by
    rw [split]
    simp
  apply ok.update region sizesKept others
  · intro s' region' different a mem
    refine agree a ?_ ?_
    · rintro rfl
      exact ok.apart s s' region region' (Ne.symm different) a inside mem
    · intro is
      have front := List.mem_of_getLast? is
      exact ok.apart s s' region region' (Ne.symm different) a (sub a (List.mem_append_left _ front)) mem
  · rw [first]
    exact path.remove distinct last fun y mem other => agree y (out y mem) other
  · rw [available, ok.available s region, split]
    simp only [sizes, List.map_append, List.map_cons, List.sum_append, List.sum_cons]
    omega
  · exact fun a mem => ok.positive s region a (sub a mem)
  · rw [List.nodup_append] at distinct ⊢
    refine ⟨distinct.1, (List.nodup_cons.mp distinct.2.1).2, fun a front b back => ?_⟩
    exact distinct.2.2 a front b (List.mem_cons_of_mem _ back)
  · exact fun s' region' different a mem => ok.apart s s' region region' (Ne.symm different) a (sub a mem)

end SetsOk

/-! ## Obtaining an object -/

variable [DecidableEq ρ]

/-- The memory once an object of the set `s` was obtained; nothing has changed if there was none. -/
def Obtained (R : Set ρ) (mem : Memory ρ) (objs : SetId ρ → List Nat) (s : SetId ρ) (mem' : Memory ρ) :
    Option Nat → Prop
  | none => mem' = mem
  | some object => ∃ as bs, objs s = as ++ object :: bs ∧
      SetsOk R mem' (Function.update objs s (as ++ bs)) ∧
      (∀ a, (mem'.objects a).available = (mem.objects a).available) ∧
      (∀ s', s' ≠ s → mem'.sets s' = mem.sets s') ∧
      (mem'.sets s).next = (mem.sets s).next ∧ (mem'.sets s).prev = (mem.sets s).prev ∧
      (mem'.sets s).isAdded = (mem.sets s).isAdded ∧
      (mem'.sets s).available + (mem.objects object).available = (mem.sets s).available

theorem SetsOk.object_le (ok : SetsOk R mem objs) (region : s.1 ∈ R) {as bs : List Nat} {object : Nat}
    (split : objs s = as ++ object :: bs) : (mem.objects object).available ≤ (mem.sets s).available := by
  rw [ok.available s region, split]
  simp only [sizes, List.map_append, List.map_cons, List.sum_append, List.sum_cons]
  omega

/-- The object behind the objects `as` is taken out. -/
theorem takeLarge_spec (ok : SetsOk R mem objs) (region : s.1 ∈ R) {as bs : List Nat} {object : Nat}
    (split : objs s = as ++ object :: bs) {prev : Option Nat}
    (before : ∀ y, as.getLast? = some y → prev = some y) :
    Obtained R mem objs s (mem.takeLarge s prev object) (some object) := by
  have le := ok.object_le region split
  have distinct := ok.distinct s region
  have start := (ok.path s region).start_eq_head?
  rw [split] at distinct start
  -- the object is the first one exactly when there is none before it
  have isFirst : some object = (mem.sets s).freeObject ↔ as = [] := by
    rw [start]
    cases as with
    | nil => simp
    | cons a as =>
      have apart := (List.nodup_append.mp distinct).2.2 a List.mem_cons_self object List.mem_cons_self
      simp [Ne.symm apart]
  refine ⟨as, bs, split, ?_⟩
  simp only [Memory.takeLarge]
  by_cases first : as = []
  · subst first
    rw [if_pos (isFirst.mpr rfl)]
    refine ⟨?_, ?_, ?_, ?_⟩
    · apply ok.takeOut region split
      · simp
      · simp
      · intro y other _
        simp [Memory.setObjectNext_of_ne _ other]
      · intro s' _ different
        simp [Memory.setSet_of_ne _ different]
      · simp
      · simp
    · simp
    · intro s' different
      simp [Memory.setSet_of_ne _ different]
    · simp only [Memory.setSet_self, Memory.setObjectNext_sets, Memory.setObjectNext_available,
        Memory.setSet_objects, true_and]
      omega
  · rw [if_neg fun is => first (isFirst.mp is)]
    obtain ⟨as', z, rfl⟩ : ∃ as' z, as = as' ++ [z] := by
      rcases List.eq_nil_or_concat' as with no | split
      · exact absurd no first
      · exact split
    have is := before z (by simp)
    subst is
    have apart : z ≠ object := (List.nodup_append.mp distinct).2.2 z (by simp) object List.mem_cons_self
    refine ⟨?_, ?_, ?_, ?_⟩
    · apply ok.takeOut region split
      · simp
      · intro y is
        obtain rfl : z = y := by simpa using is
        simp [Memory.setObjectNext_of_ne _ apart]
      · intro y other last
        have different : y ≠ z := by
          rintro rfl
          exact last (by simp)
        simp [Memory.setObjectNext_of_ne _ other, Memory.setObjectNext_of_ne _ different]
      · intro s' _ different
        simp [Memory.setSet_of_ne _ different]
      · simp [first]
      · simp
    · simp
    · intro s' different
      simp [Memory.setSet_of_ne _ different]
    · simp only [Memory.setSet_self, Memory.setObjectNext_sets, Memory.setObjectNext_available,
        Memory.setSet_objects, true_and]
      omega

theorem obtainSmallFreeObject_spec (ok : SetsOk R mem objs) (region : s.1 ∈ R) (size : Nat) :
    Obtained R mem objs s (mem.obtainSmallFreeObject s size).1 (mem.obtainSmallFreeObject s size).2 := by
  have path := ok.path s region
  unfold Memory.obtainSmallFreeObject
  cases first : (mem.sets s).freeObject with
  | none => rfl
  | some object =>
    by_cases enough : size ≤ (mem.objects object).available
    · rw [first] at path
      obtain ⟨bs, split⟩ : ∃ bs, objs s = object :: bs := by
        cases all : objs s with
        | nil =>
          rw [all] at path
          exact absurd path (by simp [Path])
        | cons a bs =>
          rw [all] at path
          cases path.1
          exact ⟨bs, rfl⟩
      have taken : Obtained R mem objs s (mem.takeLarge s none object) (some object) :=
        takeLarge_spec ok region (show objs s = [] ++ object :: bs from split) (by simp)
      rw [Memory.takeLarge, if_pos first.symm] at taken
      simp only [enough, if_true]
      exact taken
    · simp only [enough, if_false]
      rfl

/-- The loop of `ObtainLargeFreeObject` behind the objects `as`. -/
theorem obtainLarge_spec (ok : SetsOk R mem objs) (region : s.1 ∈ R) (size : Nat) {as bs : List Nat}
    (split : objs s = as ++ bs) {prev cur : Option Nat}
    (path : Path (fun a => (mem.objects a).next) cur bs none)
    (before : ∀ y, as.getLast? = some y → prev = some y) :
    ∃ mem' object, (∀ fuel, bs.length < fuel → mem.obtainLarge s size fuel prev cur = some (mem', object)) ∧
      Obtained R mem objs s mem' object := by
  induction bs generalizing as prev cur with
  | nil =>
    cases (show cur = none from path)
    refine ⟨mem, none, ?_, rfl⟩
    intro fuel enough
    obtain ⟨fuel, rfl⟩ := Nat.exists_eq_add_of_lt enough
    rfl
  | cons object bs ih =>
    obtain ⟨rfl, rest⟩ := path
    by_cases fits : size ≤ (mem.objects object).available
    · refine ⟨mem.takeLarge s prev object, some object, ?_, takeLarge_spec ok region split before⟩
      intro fuel enough
      obtain ⟨fuel, rfl⟩ := Nat.exists_eq_add_of_lt enough
      rw [Memory.obtainLarge, if_pos fits]
    · have split' : objs s = (as ++ [object]) ++ bs := by simp [split]
      obtain ⟨mem', found, run, obtained⟩ := ih split' rest
        (show ∀ y, (as ++ [object]).getLast? = some y → some object = some y by simp)
      refine ⟨mem', found, ?_, obtained⟩
      intro fuel enough
      obtain ⟨fuel, rfl⟩ := Nat.exists_eq_add_of_lt enough
      rw [Memory.obtainLarge, if_neg fits]
      exact run _ (by simp only [List.length_cons]; omega)

theorem obtainLargeFreeObject_spec (ok : SetsOk R mem objs) (region : s.1 ∈ R) (size : Nat) :
    ∃ mem' object,
      (∀ fuel, (objs s).length < fuel → mem.obtainLargeFreeObject s size fuel = some (mem', object)) ∧
      Obtained R mem objs s mem' object := by
  have split : objs s = [] ++ objs s := rfl
  exact obtainLarge_spec ok region size split (ok.path s region) (by simp)

end FreeList

end ArkRuntime
