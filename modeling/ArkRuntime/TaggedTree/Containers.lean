import ArkRuntime.Misc.Run
import ArkRuntime.TaggedTree.Insert
import ArkRuntime.TaggedTree.Remove

/-!
# `TreeMap` and `TreeSet`

The containers of `ecmascript/js_api/js_api_tree_map.cpp` and `js_api_tree_set.cpp` keep one table
and replace it by the one an operation gives back; an operation that throws leaves it alone. The
constructors are those of `ecmascript/containers`, where the comparator is installed.

`TreeMapOp` and `TreeSetOp` are the operations that change a container (`setAll` of a tree map is a
sequence of insertions). Whatever the comparison does, each of them keeps a table a table, up to the
deletion of the last node with a `Shrink`.
-/

namespace ArkRuntime

open ColorTree TaggedTree

variable {d : TreeDerived} {α : Type}

/-- The table of a new container; `compareFn` is the callable argument, if there is one. -/
def construct (d : TreeDerived) (compareFn : Option (JSTaggedValue α)) : TaggedTree d α :=
  match compareFn with
  | none => create d α minCapacity
  | some fn => (create d α minCapacity).setCompare fn

namespace JSAPITreeMap

variable (env : CompareEnv α) (map : TaggedTree .map α)

def set (key value : JSTaggedValue α) : Option (Completion (TaggedTree .map α)) :=
  if key.isHole then some .abrupt else map.insert env key value

def get (key : JSTaggedValue α) : Option (Completion (JSTaggedValue α)) := do
  match ← map.findEntry env key with
  | .abrupt => some .abrupt
  | .normal index => some (.normal (if index = -1 then .undefined else map.getValue index))

def getSize : Int := map.numberOfElements

/-- The value that was there, and the new table. -/
def delete (key : JSTaggedValue α) :
    Option (Completion (JSTaggedValue α × TaggedTree .map α)) := do
  match ← map.findEntry env key with
  | .abrupt => some .abrupt
  | .normal entry =>
      if entry < 0 then some (.normal (.undefined, map))
      else do
        let newMap ← TaggedTree.delete map entry
        some (.normal (map.getValue entry, newMap))

def clear : TaggedTree .map α :=
  let cap := getSize map
  if cap = 0 then map else create .map α (if cap < minCapacity then minCapacity else cap)

/-- Whether the key was there, and the table. -/
def replace (key value : JSTaggedValue α) : Option (Completion (Bool × TaggedTree .map α)) := do
  match ← map.findEntry env key with
  | .abrupt => some .abrupt
  | .normal index =>
      if index < 0 then some (.normal (false, map))
      else some (.normal (true, map.setValue index value))

end JSAPITreeMap

namespace JSAPITreeSet

variable (env : CompareEnv α) (set : TaggedTree .set α)

def add (value : JSTaggedValue α) : Option (Completion (TaggedTree .set α)) :=
  if value.isHole then some .abrupt else set.insert env value value

def getSize : Int := set.numberOfElements

def delete (key : JSTaggedValue α) : Option (Completion (Bool × TaggedTree .set α)) := do
  match ← set.findEntry env key with
  | .abrupt => some .abrupt
  | .normal entry =>
      if entry < 0 then some (.normal (false, set))
      else do
        let newSet ← TaggedTree.delete set entry
        some (.normal (true, newSet))

def clear : TaggedTree .set α := create .set α (getSize set)

/-- `PopFirst` and `PopLast`, by the function that finds the entry. -/
def pop (find : TaggedTree .set α → Int → Option Int) :
    Option (JSTaggedValue α × TaggedTree .set α) := do
  let entry ← find set set.getRootEntries
  if entry < 0 then some (.undefined, set)
  else do
    let newSet ← TaggedTree.delete set entry
    some (set.getKey entry, newSet)

def popFirst : Option (JSTaggedValue α × TaggedTree .set α) := pop set getMinimum

def popLast : Option (JSTaggedValue α × TaggedTree .set α) := pop set getMaximum

end JSAPITreeSet

/-- The operations that change a tree map. -/
inductive TreeMapOp (α : Type) where
  | set (key value : JSTaggedValue α)
  | delete (key : JSTaggedValue α)
  | replace (key value : JSTaggedValue α)
  | clear

/-- The operations that change a tree set. -/
inductive TreeSetOp (α : Type) where
  | add (value : JSTaggedValue α)
  | delete (key : JSTaggedValue α)
  | clear
  | popFirst
  | popLast

/-- The table a container has after a call that would replace it by `f` of the result. -/
def Completion.tableAfter {β γ : Type} (f : β → γ) (old : γ) : Completion β → γ
  | .abrupt => old
  | .normal b => f b

def TreeMapOp.step (env : CompareEnv α) (map : TaggedTree .map α) :
    TreeMapOp α → Option (TaggedTree .map α)
  | .set key value => (JSAPITreeMap.set env map key value).map (·.tableAfter id map)
  | .delete key => (JSAPITreeMap.delete env map key).map (·.tableAfter Prod.snd map)
  | .replace key value => (JSAPITreeMap.replace env map key value).map (·.tableAfter Prod.snd map)
  | .clear => some (JSAPITreeMap.clear map)

def TreeSetOp.step (env : CompareEnv α) (set : TaggedTree .set α) :
    TreeSetOp α → Option (TaggedTree .set α)
  | .add value => (JSAPITreeSet.add env set value).map (·.tableAfter id set)
  | .delete key => (JSAPITreeSet.delete env set key).map (·.tableAfter Prod.snd set)
  | .clear => some (JSAPITreeSet.clear set)
  | .popFirst => (JSAPITreeSet.popFirst set).map Prod.snd
  | .popLast => (JSAPITreeSet.popLast set).map Prod.snd

end ArkRuntime
