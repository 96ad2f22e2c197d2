import ArkRuntime.TaggedTree.Model
import ArkRuntime.Misc.RedBlack

/-!
# Header and entries of a `TaggedTree`

The slots of the array, read as one header record (`hdr`) and one record for each entry (`cells`).
Every write of the model changes one field of one record; after this module no proof looks at slot
numbers again. `TreeHeader.below` keeps the slots before the array, which nothing may write.
-/

namespace ArkRuntime

/-- The six fields of an entry; key and value of a set entry are one slot. -/
structure TreeNode (α : Type) where
  key : JSTaggedValue α
  value : JSTaggedValue α
  color : JSTaggedValue α
  parent : JSTaggedValue α
  left : JSTaggedValue α
  right : JSTaggedValue α

/-- The five header slots, the length of the array and what stands before it. -/
structure TreeHeader (α : Type) where
  elements : Int
  deleted : Int
  capacity : Int
  root : Int
  compare : JSTaggedValue α
  length : Int
  below : Int → JSTaggedValue α

namespace TreeNode

variable {α : Type}

/-- The key of a set entry is its value too. -/
def withKey (d : TreeDerived) (k : JSTaggedValue α) (n : TreeNode α) : TreeNode α :=
  match d with
  | .map => { n with key := k }
  | .set => { n with key := k, value := k }

/-- Writing the value of a set entry writes its key. -/
def withValue (d : TreeDerived) (v : JSTaggedValue α) (n : TreeNode α) : TreeNode α :=
  match d with
  | .map => { n with value := v }
  | .set => { n with key := v, value := v }

/-- The slot for the child on one side. -/
def child (s : Side) (n : TreeNode α) : JSTaggedValue α :=
  match s with
  | .left => n.left
  | .right => n.right

/-- A write to the slot for the child on one side. -/
def withChild (s : Side) (v : JSTaggedValue α) (n : TreeNode α) : TreeNode α :=
  match s with
  | .left => { n with left := v }
  | .right => { n with right := v }

end TreeNode

namespace TaggedTree

variable {d : TreeDerived} {α : Type}

/-- The header of the array. -/
def hdr (t : TaggedTree d α) : TreeHeader α where
  elements := t.numberOfElements
  deleted := t.numberOfDeletedElements
  capacity := t.capacity
  root := t.getRootEntries
  compare := t.getCompare
  length := t.length
  below := fun i => if i < 0 then t.get i else .hole

/-- The entries of the array. -/
def cells (t : TaggedTree d α) (e : Nat) : TreeNode α where
  key := t.get (entryToIndex d e)
  value := t.get (entryToIndex d e + d.valueIndex)
  color := t.get (entryToIndex d e + d.colorIndex)
  parent := t.get (entryToIndex d e + d.parentIndex)
  left := t.get (entryToIndex d e + d.leftChildIndex)
  right := t.get (entryToIndex d e + d.rightChildIndex)

@[simp] theorem numberOfElements_eq (t : TaggedTree d α) : t.numberOfElements = t.hdr.elements := rfl
@[simp] theorem numberOfDeletedElements_eq (t : TaggedTree d α) :
    t.numberOfDeletedElements = t.hdr.deleted := rfl
@[simp] theorem capacity_eq (t : TaggedTree d α) : t.capacity = t.hdr.capacity := rfl
@[simp] theorem getRootEntries_eq (t : TaggedTree d α) : t.getRootEntries = t.hdr.root := rfl
@[simp] theorem getCompare_eq (t : TaggedTree d α) : t.getCompare = t.hdr.compare := rfl
@[simp] theorem length_eq (t : TaggedTree d α) : t.length = t.hdr.length := rfl

theorem get_set (t : TaggedTree d α) (i j : Int) (v : JSTaggedValue α) :
    (t.set i v).get j = if j = i then v else t.get j := rfl

theorem length_set (t : TaggedTree d α) (i : Int) (v : JSTaggedValue α) :
    (t.set i v).length = t.length := rfl

/-! ## Reading an entry -/

section Read

variable (t : TaggedTree d α) (e : Nat)

@[simp] theorem getKey_natCast : t.getKey e = (t.cells e).key := by
  rw [getKey, if_neg (by omega)]; rfl
@[simp] theorem getValue_natCast : t.getValue e = (t.cells e).value := rfl
@[simp] theorem getColor_natCast : t.getColor e = .ofInt (t.cells e).color.getInt := by
  rw [getColor, if_neg (by omega)]; rfl
@[simp] theorem getParent_natCast : t.getParent e = (t.cells e).parent.getInt := rfl
@[simp] theorem getLeftChild_natCast : t.getLeftChild e = (t.cells e).child .left := by
  rw [getLeftChild, if_neg (by omega)]; rfl
@[simp] theorem getRightChild_natCast : t.getRightChild e = (t.cells e).child .right := by
  rw [getRightChild, if_neg (by omega)]; rfl

@[simp] theorem getKey_neg_one : t.getKey (-1) = .hole := rfl
@[simp] theorem getColor_neg_one : t.getColor (-1) = .black := rfl

@[simp] theorem childEntry_hole : childEntry (.hole : JSTaggedValue α) = -1 := rfl
@[simp] theorem childEntry_int (i : Int) : childEntry (.int i : JSTaggedValue α) = i := rfl

end Read

/-! ## Writing a field of an entry -/

section Write

variable (t : TaggedTree d α) (e : Nat) (v : JSTaggedValue α)

/-- A write from slot 5 on is to no header slot and to no slot before the array. -/
theorem hdr_set_of_five_le {i : Int} (h : 5 ≤ i) : (t.set i v).hdr = t.hdr := by
  have other : ∀ j : Int, j < 5 → (t.set i v).get j = t.get j := by
    intro j hj
    rw [get_set, if_neg (by omega)]
  have below : (t.set i v).hdr.below = t.hdr.below := by
    funext j
    by_cases hj : j < 0
    · simp only [hdr, if_pos hj, other j (by omega)]
    · simp only [hdr, if_neg hj]
  simp only [hdr, TreeHeader.mk.injEq] at below ⊢
  simp only [numberOfElements, numberOfDeletedElements, capacity, getRootEntries, getCompare,
    other 0 (by omega), other 1 (by omega), other 2 (by omega), other 3 (by omega),
    other 4 (by omega), length_set, below, and_self]

@[simp] theorem hdr_setKey : (t.setKey e v).hdr = t.hdr := by
  apply hdr_set_of_five_le
  cases d <;> simp only [entryToIndex, TreeDerived.entrySize] <;> omega
@[simp] theorem hdr_setValue : (t.setValue e v).hdr = t.hdr := by
  apply hdr_set_of_five_le
  cases d <;> simp only [entryToIndex, TreeDerived.entrySize, TreeDerived.valueIndex] <;> omega
@[simp] theorem hdr_setColor (c : TreeColor) : (t.setColor e c).hdr = t.hdr := by
  rw [setColor, if_pos (by omega)]
  apply hdr_set_of_five_le
  cases d <;> simp only [entryToIndex, TreeDerived.entrySize, TreeDerived.colorIndex] <;> omega
@[simp] theorem hdr_setParent : (t.setParent e v).hdr = t.hdr := by
  rw [setParent, if_neg (by omega)]
  apply hdr_set_of_five_le
  cases d <;> simp only [entryToIndex, TreeDerived.entrySize, TreeDerived.parentIndex] <;> omega
@[simp] theorem hdr_setLeftChild : (t.setLeftChild e v).hdr = t.hdr := by
  apply hdr_set_of_five_le
  cases d <;> simp only [entryToIndex, TreeDerived.entrySize, TreeDerived.leftChildIndex] <;> omega
@[simp] theorem hdr_setRightChild : (t.setRightChild e v).hdr = t.hdr := by
  apply hdr_set_of_five_le
  cases d <;> simp only [entryToIndex, TreeDerived.entrySize, TreeDerived.rightChildIndex] <;> omega

/-- Fields of entries do not share slots, up to key and value of a set entry. -/
theorem get_set_field (j : Nat) (o' : Int) {o : Int} (ho : 0 ≤ o ∧ o < d.entrySize)
    (ho' : 0 ≤ o' ∧ o' < d.entrySize) :
    (t.set (entryToIndex d e + o) v).get (entryToIndex d j + o') =
      if j = e ∧ o' = o then v else t.get (entryToIndex d j + o') := by
  rw [get_set]
  congr 1
  cases d <;> simp only [entryToIndex, TreeDerived.entrySize] at * <;> simp only [eq_iff_iff] <;> omega

/-- Entry `j` after a write at offset `o` of entry `e`. -/
theorem cells_set_field (j : Nat) {o : Int} (ho : 0 ≤ o ∧ o < d.entrySize) :
    (t.set (entryToIndex d e + o) v).cells j =
      if j = e then
        { key := if o = 0 then v else (t.cells e).key
          value := if d.valueIndex = o then v else (t.cells e).value
          color := if d.colorIndex = o then v else (t.cells e).color
          parent := if d.parentIndex = o then v else (t.cells e).parent
          left := if d.leftChildIndex = o then v else (t.cells e).left
          right := if d.rightChildIndex = o then v else (t.cells e).right }
      else t.cells j := by
  have key := get_set_field t e v j 0 ho (by cases d <;> decide)
  have value := get_set_field t e v j d.valueIndex ho (by cases d <;> decide)
  have color := get_set_field t e v j d.colorIndex ho (by cases d <;> decide)
  have parent := get_set_field t e v j d.parentIndex ho (by cases d <;> decide)
  have left := get_set_field t e v j d.leftChildIndex ho (by cases d <;> decide)
  have right := get_set_field t e v j d.rightChildIndex ho (by cases d <;> decide)
  rw [Int.add_zero] at key
  simp only [cells, key, value, color, parent, left, right]
  by_cases h : j = e
  · subst h
    simp only [true_and, if_true, eq_comm (a := (0 : Int))]
  · simp only [h, false_and, if_false]

@[simp] theorem cells_setKey :
    (t.setKey e v).cells = Function.update t.cells e ((t.cells e).withKey d v) := by
  funext j
  have h := cells_set_field t e v j (o := 0) (by cases d <;> decide)
  rw [Int.add_zero] at h
  rw [setKey, h, Function.update_apply]
  cases d <;> rfl

@[simp] theorem cells_setValue :
    (t.setValue e v).cells = Function.update t.cells e ((t.cells e).withValue d v) := by
  funext j
  rw [setValue, cells_set_field _ _ _ _ (by cases d <;> decide), Function.update_apply]
  cases d <;> rfl

@[simp] theorem cells_setColor (c : TreeColor) :
    (t.setColor e c).cells = Function.update t.cells e { t.cells e with color := .int c.toInt } := by
  funext j
  rw [setColor, if_pos (by omega), cells_set_field _ _ _ _ (by cases d <;> decide),
    Function.update_apply]
  cases d <;> cases c <;> rfl

@[simp] theorem cells_setParent :
    (t.setParent e v).cells = Function.update t.cells e { t.cells e with parent := v } := by
  funext j
  rw [setParent, if_neg (by omega), cells_set_field _ _ _ _ (by cases d <;> decide),
    Function.update_apply]
  cases d <;> rfl

@[simp] theorem cells_setLeftChild :
    (t.setLeftChild e v).cells = Function.update t.cells e ((t.cells e).withChild .left v) := by
  funext j
  rw [setLeftChild, cells_set_field _ _ _ _ (by cases d <;> decide), Function.update_apply]
  cases d <;> rfl

@[simp] theorem cells_setRightChild :
    (t.setRightChild e v).cells = Function.update t.cells e ((t.cells e).withChild .right v) := by
  funext j
  rw [setRightChild, cells_set_field _ _ _ _ (by cases d <;> decide), Function.update_apply]
  cases d <;> rfl

end Write

/-! ## The two children as one -/

/-- `GetLeftChild` and `GetRightChild`. -/
def getChild (s : Side) (t : TaggedTree d α) (e : Int) : JSTaggedValue α :=
  match s with
  | .left => t.getLeftChild e
  | .right => t.getRightChild e

/-- `SetLeftChild` and `SetRightChild`. -/
def setChild (s : Side) (t : TaggedTree d α) (e : Int) (v : JSTaggedValue α) : TaggedTree d α :=
  match s with
  | .left => t.setLeftChild e v
  | .right => t.setRightChild e v

@[simp] theorem getChild_natCast (s : Side) (t : TaggedTree d α) (e : Nat) :
    getChild s t e = (t.cells e).child s := by
  cases s
  · exact getLeftChild_natCast t e
  · exact getRightChild_natCast t e

@[simp] theorem hdr_setChild (s : Side) (t : TaggedTree d α) (e : Nat) (v : JSTaggedValue α) :
    (setChild s t e v).hdr = t.hdr := by
  cases s
  · exact hdr_setLeftChild t e v
  · exact hdr_setRightChild t e v

@[simp] theorem cells_setChild (s : Side) (t : TaggedTree d α) (e : Nat) (v : JSTaggedValue α) :
    (setChild s t e v).cells = Function.update t.cells e ((t.cells e).withChild s v) := by
  cases s
  · exact cells_setLeftChild t e v
  · exact cells_setRightChild t e v

/-! ## Writing the header -/

section WriteHeader

variable (t : TaggedTree d α) (n : Int)

/-- A write to one of the five header slots leaves the entries alone. -/
theorem cells_set_of_lt_five {i : Int} (v : JSTaggedValue α) (h : i < 5) :
    (t.set i v).cells = t.cells := by
  have other : ∀ j : Int, 5 ≤ j → (t.set i v).get j = t.get j := by
    intro j hj
    rw [get_set, if_neg (by omega)]
  funext e
  have from5 : ∀ o : Int, 0 ≤ o → 5 ≤ entryToIndex d e + o := by
    intro o ho
    cases d <;> simp only [entryToIndex, TreeDerived.entrySize] <;> omega
  have key := other _ (from5 0 (by omega))
  rw [Int.add_zero] at key
  simp only [cells, key, other _ (from5 d.valueIndex (by cases d <;> decide)),
    other _ (from5 d.colorIndex (by cases d <;> decide)),
    other _ (from5 d.parentIndex (by cases d <;> decide)),
    other _ (from5 d.leftChildIndex (by cases d <;> decide)),
    other _ (from5 d.rightChildIndex (by cases d <;> decide))]

@[simp] theorem cells_setNumberOfElements : (t.setNumberOfElements n).cells = t.cells :=
  cells_set_of_lt_five t _ (by omega)
@[simp] theorem cells_setNumberOfDeletedElements :
    (t.setNumberOfDeletedElements n).cells = t.cells :=
  cells_set_of_lt_five t _ (by omega)
@[simp] theorem cells_setCapacity : (t.setCapacity n).cells = t.cells :=
  cells_set_of_lt_five t _ (by omega)
@[simp] theorem cells_setRootEntries : (t.setRootEntries n).cells = t.cells :=
  cells_set_of_lt_five t _ (by omega)
@[simp] theorem cells_setCompare (fn : JSTaggedValue α) : (t.setCompare fn).cells = t.cells :=
  cells_set_of_lt_five t _ (by omega)

theorem below_set {i : Int} (v : JSTaggedValue α) (h : 0 ≤ i) :
    (t.set i v).hdr.below = t.hdr.below := by
  funext j
  by_cases hj : j < 0
  · simp only [hdr, if_pos hj, get_set, if_neg (show j ≠ i by omega)]
  · simp only [hdr, if_neg hj]

theorem hdr_set {i : Int} (v : JSTaggedValue α) (h : 0 ≤ i) :
    (t.set i v).hdr =
      { elements := if 0 = i then v.getInt else t.numberOfElements
        deleted := if 1 = i then v.getInt else t.numberOfDeletedElements
        capacity := if 2 = i then v.getInt else t.capacity
        root := if 3 = i then v.getInt else t.getRootEntries
        compare := if 4 = i then v else t.getCompare
        length := t.length
        below := t.hdr.below } := by
  rw [← below_set t v h]
  simp only [hdr, numberOfElements, numberOfDeletedElements, capacity, getRootEntries, getCompare,
    get_set, length_set, TreeHeader.mk.injEq, and_true]
  refine ⟨?_, ?_, ?_, ?_⟩ <;> split_ifs <;> rfl

@[simp] theorem hdr_setNumberOfElements :
    (t.setNumberOfElements n).hdr = { t.hdr with elements := n } :=
  hdr_set t (.int n) (by omega)
@[simp] theorem hdr_setNumberOfDeletedElements :
    (t.setNumberOfDeletedElements n).hdr = { t.hdr with deleted := n } :=
  hdr_set t (.int n) (by omega)
@[simp] theorem hdr_setCapacity : (t.setCapacity n).hdr = { t.hdr with capacity := n } :=
  hdr_set t (.int n) (by omega)
@[simp] theorem hdr_setRootEntries : (t.setRootEntries n).hdr = { t.hdr with root := n } :=
  hdr_set t (.int n) (by omega)
@[simp] theorem hdr_setCompare (fn : JSTaggedValue α) :
    (t.setCompare fn).hdr = { t.hdr with compare := fn } :=
  hdr_set t fn (by omega)

end WriteHeader

end TaggedTree

end ArkRuntime
