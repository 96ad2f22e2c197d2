import Mathlib.Algebra.Order.Ring.Int

/-!
# Free lists

`FreeObjectList` and `FreeObjectSet` (`ecmascript/mem/free_object_list.cpp`, `free_object_set.cpp`). A region
has a set of free objects for each class of sizes; the sets that a list has been given are linked, for each
class, from `sets_` to `lastSets_`. The available size is kept for each object, each set and the list.

A set is named by its region and its type, an object by its address, and `regionOf` is `ObjectAddressToRange`.
Sizes are natural numbers. `Allocate` and `ObtainLargeFreeObject` walk along pointers; their first argument
bounds the steps, and `none` says that they do not suffice.
-/

namespace ArkRuntime

namespace FreeList

variable {ρ : Type} [DecidableEq ρ]

/-- A region and a set type. -/
abbrev SetId (ρ : Type) := ρ × Nat

structure FreeObject where
  next : Option Nat
  available : Nat
deriving DecidableEq, Repr

structure FreeObjectSet (ρ : Type) where
  next : Option (SetId ρ)
  prev : Option (SetId ρ)
  available : Nat
  isAdded : Bool
  freeObject : Option Nat
deriving DecidableEq, Repr

/-- A set after `Rebuild`. -/
def FreeObjectSet.init : FreeObjectSet ρ := ⟨none, none, 0, false, none⟩

structure Memory (ρ : Type) where
  objects : Nat → FreeObject
  sets : SetId ρ → FreeObjectSet ρ
  /-- The wasted size of a region. -/
  wasted : ρ → Nat

def numberOfSets : Nat := 39

def minSize : Nat := 16

def smallSetMaxIndex : Nat := 29

structure FreeObjectList (ρ : Type) where
  available : Nat
  wasted : Nat
  noneEmptySetBitMap : BitVec 64
  sets : Nat → Option (SetId ρ)
  lastSets : Nat → Option (SetId ρ)

/-- A new list. -/
def FreeObjectList.init : FreeObjectList ρ := ⟨0, 0, 0, fun _ => none, fun _ => none⟩

/-! ## Sets -/

namespace Memory

variable (mem : Memory ρ)

def setObject (a : Nat) (object : FreeObject) : Memory ρ :=
  { mem with objects := Function.update mem.objects a object }

/-- `SetNext`. -/
def setObjectNext (a : Nat) (next : Option Nat) : Memory ρ :=
  mem.setObject a { mem.objects a with next }

def setSet (s : SetId ρ) (set : FreeObjectSet ρ) : Memory ρ :=
  { mem with sets := Function.update mem.sets s set }

def setNext (s : SetId ρ) (next : Option (SetId ρ)) : Memory ρ := mem.setSet s { mem.sets s with next }

def setPrev (s : SetId ρ) (prev : Option (SetId ρ)) : Memory ρ := mem.setSet s { mem.sets s with prev }

/-- `s->next_ = next`, unless `s` is null. -/
def linkNext (s next : Option (SetId ρ)) : Memory ρ :=
  match s with
  | some s => mem.setNext s next
  | none => mem

/-- `s->prev_ = prev`, unless `s` is null. -/
def linkPrev (s prev : Option (SetId ρ)) : Memory ρ :=
  match s with
  | some s => mem.setPrev s prev
  | none => mem

/-- `FreeObjectSet::Free`. -/
def free (s : SetId ρ) (start size : Nat) : Memory ρ :=
  let mem := mem.setObjectNext start (mem.sets s).freeObject
  mem.setSet s { mem.sets s with freeObject := some start, available := (mem.sets s).available + size }

/-- `FreeObjectSet::Rebuild`. -/
def rebuild (s : SetId ρ) : Memory ρ := mem.setSet s .init

/-- `ObtainSmallFreeObject`. -/
def obtainSmallFreeObject (s : SetId ρ) (size : Nat) : Memory ρ × Option Nat :=
  match (mem.sets s).freeObject with
  | none => (mem, none)
  | some object =>
      if size ≤ (mem.objects object).available then
        let mem := mem.setSet s { mem.sets s with freeObject := (mem.objects object).next }
        let mem := mem.setObjectNext object none
        let available := (mem.sets s).available - (mem.objects object).available
        (mem.setSet s { mem.sets s with available }, some object)
      else (mem, none)

/-- The object at which the loop of `ObtainLargeFreeObject` stops is taken out. -/
def takeLarge (s : SetId ρ) (prevFreeObject : Option Nat) (curFreeObject : Nat) : Memory ρ :=
  let next := (mem.objects curFreeObject).next
  let mem :=
    if some curFreeObject = (mem.sets s).freeObject then
      mem.setSet s { mem.sets s with freeObject := next }
    else
      match prevFreeObject with
      | some prevFreeObject => mem.setObjectNext prevFreeObject next
      | none => mem
  let mem := mem.setObjectNext curFreeObject none
  let available := (mem.sets s).available - (mem.objects curFreeObject).available
  mem.setSet s { mem.sets s with available }

/-- The loop of `ObtainLargeFreeObject`. -/
def obtainLarge (s : SetId ρ) (size : Nat) : Nat → Option Nat → Option Nat → Option (Memory ρ × Option Nat)
  | 0, _, _ => none
  | _ + 1, _, none => some (mem, none)
  | fuel + 1, prevFreeObject, some curFreeObject =>
      if size ≤ (mem.objects curFreeObject).available then
        some (mem.takeLarge s prevFreeObject curFreeObject, some curFreeObject)
      else obtainLarge s size fuel (some curFreeObject) (mem.objects curFreeObject).next

/-- `ObtainLargeFreeObject`. -/
def obtainLargeFreeObject (s : SetId ρ) (size fuel : Nat) : Option (Memory ρ × Option Nat) :=
  mem.obtainLarge s size fuel (mem.sets s).freeObject (mem.sets s).freeObject

/-- The object that `Allocate` obtains from a set of the type `t`. -/
def obtainFreeObject (t : Nat) (s : SetId ρ) (size fuel : Nat) : Option (Memory ρ × Option Nat) :=
  if t ≤ smallSetMaxIndex then some (mem.obtainSmallFreeObject s size)
  else mem.obtainLargeFreeObject s size fuel

end Memory

/-! ## Lists -/

/-- `SelectSetType`; `none` is the invalid type. -/
def selectSetType (size : Nat) : Option Nat :=
  if size < 256 then
    if size < minSize then none else some (size / 8 - 2)
  else if size < 65536 then some (size.log2 + 1 + 21)
  else if 255 * 1024 ≤ size then some (numberOfSets - 1)
  else some (numberOfSets - 2)

/-- `__builtin_ffsll`. -/
def ffsll (x : BitVec 64) : Nat :=
  match (List.range 64).find? fun i => x.getLsbD i with
  | some i => i + 1
  | none => 0

/-- A list in its memory. -/
structure State (ρ : Type) where
  mem : Memory ρ
  list : FreeObjectList ρ

namespace FreeObjectList

variable (list : FreeObjectList ρ)

def setNoneEmptyBit (t : Nat) : FreeObjectList ρ :=
  { list with noneEmptySetBitMap := list.noneEmptySetBitMap ||| (1#64 <<< t) }

def clearNoneEmptyBit (t : Nat) : FreeObjectList ρ :=
  { list with noneEmptySetBitMap := list.noneEmptySetBitMap &&& ~~~(1#64 <<< t) }

/-- `CalcNextNoneEmptyIndex`. -/
def calcNextNoneEmptyIndex (start : Nat) : Int :=
  (ffsll (list.noneEmptySetBitMap >>> start) : Int) + start - 1

end FreeObjectList

namespace State

variable (st : State ρ)

/-- `AddSet`. -/
def addSet (s : SetId ρ) : State ρ × Bool :=
  let set := st.mem.sets s
  if set.available = 0 ∨ set.isAdded = true then (st, false)
  else
    let top := st.list.sets s.2
    if top = some s then (st, false)
    else
      let mem := st.mem.linkPrev top (some s)
      let mem := mem.setSet s { mem.sets s with isAdded := true, next := top, prev := none }
      let list := st.list
      let list := if list.lastSets s.2 = none then
        { list with lastSets := Function.update list.lastSets s.2 (some s) } else list
      let list := if list.sets s.2 = none then list.setNoneEmptyBit s.2 else list
      let list := { list with sets := Function.update list.sets s.2 (some s) }
      (⟨mem, { list with available := list.available + (mem.sets s).available }⟩, true)

/-- `RemoveSet`. -/
def removeSet (s : SetId ρ) : State ρ :=
  let set := st.mem.sets s
  let top := st.list.sets s.2
  let last := st.list.lastSets s.2
  let list := st.list
  let list := if top = some s then { list with sets := Function.update list.sets s.2 set.next } else list
  let list := if last = some s then { list with lastSets := Function.update list.lastSets s.2 set.prev } else list
  let mem := st.mem.linkNext set.prev set.next
  let mem := mem.linkPrev (mem.sets s).next set.prev
  let mem := mem.setSet s { mem.sets s with isAdded := false, prev := none, next := none }
  let list := if list.sets s.2 = none then list.clearNoneEmptyBit s.2 else list
  ⟨mem, { list with available := list.available - (mem.sets s).available }⟩

/-- `Free`. -/
def free (regionOf : Nat → ρ) (start size : Nat) (isAdd : Bool) : State ρ :=
  if start = 0 then st
  else if size < minSize then
    let region := regionOf start
    let mem := { st.mem with wasted := Function.update st.mem.wasted region (st.mem.wasted region + size) }
    if isAdd then ⟨mem, { st.list with wasted := st.list.wasted + size }⟩ else ⟨mem, st.list⟩
  else
    match selectSetType size with
    | none => st
    | some t =>
        let s := (regionOf start, t)
        let mem := st.mem.free s start size
        if isAdd then
          if (mem.sets s).isAdded = false then (State.addSet ⟨mem, st.list⟩ s).1
          else ⟨mem, { st.list with available := st.list.available + size }⟩
        else ⟨mem, st.list⟩

/-- The inner loop of `Allocate` over the sets of a type: the object, if there is one. -/
def allocateInSets (size t : Nat) : Nat → Option (SetId ρ) → State ρ → Option (State ρ × Option Nat)
  | 0, _, _ => none
  | _ + 1, none, st => some (st, none)
  | fuel + 1, some current, st =>
      if (st.mem.sets current).available < size then
        allocateInSets size t fuel (st.mem.sets current).next st
      else do
        let next := if t ≤ smallSetMaxIndex then none else (st.mem.sets current).next
        let (mem, object) ← st.mem.obtainFreeObject t current size fuel
        let st : State ρ := ⟨mem, st.list⟩
        let st := if (mem.sets current).available = 0 then
            let st := st.removeSet current
            ⟨st.mem.rebuild current, st.list⟩
          else st
        match object with
        | some object =>
            let available := st.list.available - (st.mem.objects object).available
            some (⟨st.mem, { st.list with available }⟩, some object)
        | none => allocateInSets size t fuel next st

/-- The outer loop of `Allocate` over the types. -/
def allocateFrom (size fuel : Nat) : Nat → Int → Int → State ρ → Option (State ρ × Option Nat)
  | 0, _, _, _ => none
  | rounds + 1, t, lastType, st =>
      if lastType < t ∧ t < numberOfSets then do
        let (st, object) ← allocateInSets size t.toNat fuel (st.list.sets t.toNat) st
        match object with
        | some object => return (st, some object)
        | none => allocateFrom size fuel rounds (st.list.calcNextNoneEmptyIndex (t.toNat + 1)) t st
      else some (st, none)

/-- `Allocate`: the object, or null. -/
def allocate (fuel size : Nat) : Option (State ρ × Option Nat) :=
  if st.list.noneEmptySetBitMap = 0 then some (st, none)
  else
    match selectSetType size with
    | none => some (st, none)
    | some t => allocateFrom size fuel (numberOfSets + 1) (st.list.calcNextNoneEmptyIndex t) (t - 1) st

end State

end FreeList

end ArkRuntime
