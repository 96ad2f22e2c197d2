import Mathlib.Algebra.Order.Ring.Int

/-!
# Tagged values and tagged arrays

`JSTaggedValue` (`ecmascript/js_tagged_value.h`) with the values the containers look into: the
Hole, `undefined` and integers. Every other value is an element of an arbitrary type `α`; what is
asked about it (equality, order, hash) is a parameter.

`TaggedArray` (`ecmascript/tagged_array.h`) is a length and the content of the slots. `Get` and
`Set` do not check their index, so the model keeps a content for every integer; that the indices
used are inside the array is a property to be proved.
-/

namespace ArkRuntime

inductive JSTaggedValue (α : Type) where
  | hole
  | undefined
  | int (i : Int)
  | ref (a : α)
  deriving DecidableEq, Repr

namespace JSTaggedValue

variable {α : Type}

/-- `JSTaggedValue::IsHole`. -/
def isHole : JSTaggedValue α → Bool
  | .hole => true
  | _ => false

/-- `JSTaggedValue::IsUndefined`. -/
def isUndefined : JSTaggedValue α → Bool
  | .undefined => true
  | _ => false

/-- `JSTaggedValue::GetInt`; the source asserts that the value is an integer. -/
def getInt : JSTaggedValue α → Int
  | .int i => i
  | _ => 0

@[simp] theorem isHole_hole : (hole : JSTaggedValue α).isHole = true := rfl
@[simp] theorem isHole_undefined : (undefined : JSTaggedValue α).isHole = false := rfl
@[simp] theorem isHole_int (i : Int) : (int i : JSTaggedValue α).isHole = false := rfl
@[simp] theorem isHole_ref (a : α) : (ref a).isHole = false := rfl
@[simp] theorem getInt_int (i : Int) : (int i : JSTaggedValue α).getInt = i := rfl

theorem isHole_eq_true {v : JSTaggedValue α} : v.isHole = true ↔ v = .hole := by
  cases v <;> simp [isHole]

theorem isHole_eq_false {v : JSTaggedValue α} : v.isHole = false ↔ v ≠ .hole := by
  cases v <;> simp [isHole]

end JSTaggedValue

/-- `ComparisonResult` (`ecmascript/js_tagged_value.h`). -/
inductive ComparisonResult where
  | great
  | equal
  | less
  | undefined
  deriving DecidableEq, Repr

/-- A call that may leave an exception pending on the thread. -/
inductive Completion (β : Type) where
  | normal (b : β)
  | abrupt
  deriving DecidableEq, Repr

structure TaggedArray (α : Type) where
  length : Int
  slot : Int → JSTaggedValue α

namespace TaggedArray

variable {α : Type}

/-- `TaggedArray::Get`. -/
def get (a : TaggedArray α) (i : Int) : JSTaggedValue α := a.slot i

/-- `TaggedArray::Set`. -/
def set (a : TaggedArray α) (i : Int) (v : JSTaggedValue α) : TaggedArray α :=
  { a with slot := fun j => if j = i then v else a.slot j }

/-- `ObjectFactory::NewTaggedArray`: every slot is a Hole. -/
def newTaggedArray (length : Int) : TaggedArray α := ⟨length, fun _ => .hole⟩

/-- `ObjectFactory::ExtendArray`: a longer copy whose new slots are Holes. -/
def extendArray (old : TaggedArray α) (length : Int) : TaggedArray α :=
  ⟨length, fun i => if i < old.length then old.slot i else .hole⟩

@[simp] theorem length_set (a : TaggedArray α) (i : Int) (v : JSTaggedValue α) :
    (a.set i v).length = a.length := rfl

theorem get_set (a : TaggedArray α) (i j : Int) (v : JSTaggedValue α) :
    (a.set i v).get j = if j = i then v else a.get j := rfl

@[simp] theorem get_newTaggedArray (n i : Int) :
    (newTaggedArray n : TaggedArray α).get i = .hole := rfl

theorem get_extendArray (a : TaggedArray α) (n i : Int) :
    (a.extendArray n).get i = if i < a.length then a.get i else .hole := rfl

end TaggedArray

end ArkRuntime
