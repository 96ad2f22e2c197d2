import ArkRuntime.TaggedList.Model

/-!
# Header and nodes of a `TaggedList`

The slots of the array, read as one header record (`hdr`) and one record for each node (`cells`).
Node `e` has its data at `dataIndex d e`, and node 0 is the sentinel. Every write of the model
changes one field of one record, as long as the node is inside the array (`Fits`); after this
module no proof looks at slot numbers again.
-/

namespace ArkRuntime

structure ListHeader where
  nodes : Int
  deleted : Int
  head : Int
  tail : Int
  length : Int

structure ListCell (α : Type) where
  data : JSTaggedValue α
  next : Int
  prev : Int

/-- The node with its prev link, which only a double list has. -/
def ListCell.withPrev {α : Type} (d : ListDerived) (i : Int) (c : ListCell α) : ListCell α :=
  match d with
  | .single => c
  | .double => { c with prev := i }

@[simp] theorem ListCell.data_withPrev {α : Type} (d : ListDerived) (i : Int) (c : ListCell α) :
    (c.withPrev d i).data = c.data := by cases d <;> rfl

@[simp] theorem ListCell.next_withPrev {α : Type} (d : ListDerived) (i : Int) (c : ListCell α) :
    (c.withPrev d i).next = c.next := by cases d <;> rfl

namespace TaggedList

variable {d : ListDerived} {α : Type}

/-- The index of the data of node `e`. -/
def dataIndex (d : ListDerived) (e : Nat) : Int := elementsStartIndex + e * d.entrySize

/-- Node `e` is inside an array of this length. -/
def Fits (d : ListDerived) (length : Int) (e : Nat) : Prop := dataIndex d (e + 1) ≤ length

def hdr (l : TaggedList d α) : ListHeader where
  nodes := l.numberOfNodes
  deleted := l.numberOfDeletedNodes
  head := l.headTable
  tail := l.tailTable
  length := l.length

def cells (l : TaggedList d α) (e : Nat) : ListCell α where
  data := l.getElement (dataIndex d e)
  next := l.nextOf (dataIndex d e)
  prev := match d with
    | .single => 0
    | .double => l.prevOf (dataIndex d e)

section Indices

theorem entrySize_pos : 2 ≤ d.entrySize := by cases d <;> decide

theorem dataIndex_inj {e j : Nat} : dataIndex d e = dataIndex d j ↔ e = j := by
  cases d <;> simp only [dataIndex, ListDerived.entrySize] <;> omega

theorem dataIndex_zero : dataIndex d 0 = elementsStartIndex := by simp [dataIndex]

theorem dataIndex_eq_start {e : Nat} : dataIndex d e = elementsStartIndex ↔ e = 0 := by
  rw [← dataIndex_zero (d := d), dataIndex_inj]

theorem dataIndex_nonneg (e : Nat) : 4 ≤ dataIndex d e := by
  cases d <;> simp only [dataIndex, elementsStartIndex, ListDerived.entrySize] <;> omega

theorem Fits.mono {length : Int} {e j : Nat} (fits : Fits d length e) (le : j ≤ e) :
    Fits d length j := by
  cases d <;> simp only [Fits, dataIndex, elementsStartIndex, ListDerived.entrySize] at * <;> omega

theorem Fits.header {length : Int} {e : Nat} (fits : Fits d length e) : 4 ≤ length := by
  have := dataIndex_nonneg (d := d) (e + 1)
  unfold Fits at fits
  omega

/-- A loop round a ring of `e` nodes has enough rounds. -/
theorem Fits.lt_fuel {l : TaggedList d α} {e : Nat} (fits : Fits d l.length e) : e + 3 < l.fuel := by
  unfold Fits dataIndex elementsStartIndex at fits
  unfold fuel
  have := entrySize_pos (d := d)
  cases d <;> simp only [ListDerived.entrySize] at fits <;> omega

end Indices

/-! ## Reading -/

section Read

variable (l : TaggedList d α) (e : Nat)

theorem numberOfNodes_eq : l.numberOfNodes = l.hdr.nodes := rfl
theorem numberOfDeletedNodes_eq : l.numberOfDeletedNodes = l.hdr.deleted := rfl
theorem headTable_eq : l.headTable = l.hdr.head := rfl
theorem tailTable_eq : l.tailTable = l.hdr.tail := rfl
theorem length_eq : l.length = l.hdr.length := rfl

theorem getElement_dataIndex : l.getElement (dataIndex d e) = (l.cells e).data := rfl
theorem nextOf_dataIndex : l.nextOf (dataIndex d e) = (l.cells e).next := rfl

end Read

/-! ## Writing -/

section Write

variable {l : TaggedList d α} (v : JSTaggedValue α) (i : Int)

@[simp] theorem length_set : (l.set i v).length = l.length := rfl

theorem get_set (j : Int) : (l.set i v).get j = if j = i then v else l.get j := rfl

theorem getElement_setElement (j : Int) :
    (l.setElement i v).getElement j =
      if j = i ∧ 0 ≤ i ∧ i < l.length then v else l.getElement j := by
  unfold setElement
  by_cases outside : i < 0 ∨ l.length ≤ i
  · have no : ¬ (j = i ∧ 0 ≤ i ∧ i < l.length) := by omega
    rw [if_pos outside, if_neg no]
  · rw [if_neg outside]
    unfold getElement
    rw [length_set, get_set]
    by_cases same : j = i
    · rw [if_pos same, if_neg (by omega), if_pos (by omega)]
    · have no : ¬ (j = i ∧ 0 ≤ i ∧ i < l.length) := by omega
      rw [if_neg same, if_neg no]

theorem get_setElement {j : Int} (ne : j ≠ i) : (l.setElement i v).get j = l.get j := by
  unfold setElement
  split_ifs
  · rfl
  · rw [get_set, if_neg ne]

@[simp] theorem length_setElement : (l.setElement i v).length = l.length := by
  unfold setElement
  split_ifs <;> rfl

@[simp] theorem length_setNumberOfNodes : (l.setNumberOfNodes i).length = l.length := rfl
@[simp] theorem length_setNumberOfDeletedNodes : (l.setNumberOfDeletedNodes i).length = l.length := rfl
@[simp] theorem length_setHeadTable : (l.setHeadTable i).length = l.length := length_setElement _ _
@[simp] theorem length_setTailTable : (l.setTailTable i).length = l.length := length_setElement _ _

@[simp] theorem length_setNext (j : Int) : (l.setNext j i).length = l.length := length_setElement _ _
@[simp] theorem length_setPrev (j : Int) : (l.setPrev j i).length = l.length := length_setElement _ _

/-- A write to the nodes leaves the header alone. -/
theorem hdr_setElement (high : 4 ≤ i) : (l.setElement i v).hdr = l.hdr := by
  simp only [hdr, ListHeader.mk.injEq, numberOfNodes, numberOfDeletedNodes, headTable, tailTable,
    getElement_setElement, length_setElement]
  refine ⟨?_, ?_, ?_, ?_, trivial⟩
  · rw [get_setElement v i (by omega)]
  · rw [get_setElement v i (by omega)]
  · rw [if_neg (by omega)]
  · rw [if_neg (by omega)]

@[simp] theorem hdr_setData (e : Nat) : (l.setElement (dataIndex d e) v).hdr = l.hdr :=
  hdr_setElement _ _ (dataIndex_nonneg e)

@[simp] theorem hdr_setNext (e : Nat) : (l.setNext (dataIndex d e) i).hdr = l.hdr := by
  have := dataIndex_nonneg (d := d) e
  exact hdr_setElement _ _ (by omega)

@[simp] theorem hdr_setPrev (e : Nat) : (l.setPrev (dataIndex d e) i).hdr = l.hdr := by
  have := dataIndex_nonneg (d := d) e
  exact hdr_setElement _ _ (by omega)

/-- A write to the header slots through `SetElement` leaves the nodes alone. -/
theorem cells_setElement (low : i < 4) : (l.setElement i v).cells = l.cells := by
  funext e
  have high := dataIndex_nonneg (d := d) e
  have other : ∀ j, 4 ≤ j → (l.setElement i v).getElement j = l.getElement j := fun j hj => by
    rw [getElement_setElement, if_neg (by omega)]
  cases d with
  | single => simp only [cells, nextOf, other _ high, other (dataIndex .single e + 1) (by omega)]
  | double =>
    simp only [cells, nextOf, prevOf, other _ high, other (dataIndex .double e + 1) (by omega),
      other (dataIndex .double e + 2) (by omega)]

@[simp] theorem cells_setHeadTable : (l.setHeadTable i).cells = l.cells :=
  cells_setElement _ _ (by omega)
@[simp] theorem cells_setTailTable : (l.setTailTable i).cells = l.cells :=
  cells_setElement _ _ (by omega)

/-- `Set` of slot 0 or 1 leaves what `GetElement` reads elsewhere alone. -/
theorem getElement_set {j : Int} (ne : j ≠ i) :
    (l.set i v).getElement j = l.getElement j := by
  simp only [getElement, length_set, get_set, if_neg ne]

theorem cells_set (low : i < 4) : (l.set i v).cells = l.cells := by
  funext e
  have high := dataIndex_nonneg (d := d) e
  have other : ∀ j, 4 ≤ j → (l.set i v).getElement j = l.getElement j := fun j hj =>
    getElement_set v i (by omega)
  cases d with
  | single => simp only [cells, nextOf, other _ high, other (dataIndex .single e + 1) (by omega)]
  | double =>
    simp only [cells, nextOf, prevOf, other _ high, other (dataIndex .double e + 1) (by omega),
      other (dataIndex .double e + 2) (by omega)]

@[simp] theorem cells_setNumberOfNodes : (l.setNumberOfNodes i).cells = l.cells :=
  cells_set _ _ (by omega)
@[simp] theorem cells_setNumberOfDeletedNodes : (l.setNumberOfDeletedNodes i).cells = l.cells :=
  cells_set _ _ (by omega)

@[simp] theorem hdr_setNumberOfNodes :
    (l.setNumberOfNodes i).hdr = { l.hdr with nodes := i } := by
  simp only [hdr, ListHeader.mk.injEq, setNumberOfNodes, headTable, tailTable, length_set]
  refine ⟨?_, ?_, ?_, ?_, trivial⟩
  · simp [numberOfNodes, get_set]
  · simp [numberOfDeletedNodes, get_set]
  · rw [getElement_set _ _ (by omega)]
  · rw [getElement_set _ _ (by omega)]

@[simp] theorem hdr_setNumberOfDeletedNodes :
    (l.setNumberOfDeletedNodes i).hdr = { l.hdr with deleted := i } := by
  simp only [hdr, ListHeader.mk.injEq, setNumberOfDeletedNodes, headTable, tailTable, length_set]
  refine ⟨?_, ?_, ?_, ?_, trivial⟩
  · simp [numberOfNodes, get_set]
  · simp [numberOfDeletedNodes, get_set]
  · rw [getElement_set _ _ (by omega)]
  · rw [getElement_set _ _ (by omega)]

theorem hdr_setHeadTable (long : 4 ≤ l.length) :
    (l.setHeadTable i).hdr = { l.hdr with head := i } := by
  simp only [hdr, ListHeader.mk.injEq, setHeadTable, numberOfNodes, numberOfDeletedNodes, headTable,
    tailTable, getElement_setElement, length_setElement]
  refine ⟨?_, ?_, ?_, ?_, trivial⟩
  · rw [get_setElement _ _ (by omega)]
  · rw [get_setElement _ _ (by omega)]
  · rw [if_pos (by simp; omega), JSTaggedValue.getInt_int]
  · rw [if_neg (by omega)]

theorem hdr_setTailTable (long : 4 ≤ l.length) :
    (l.setTailTable i).hdr = { l.hdr with tail := i } := by
  simp only [hdr, ListHeader.mk.injEq, setTailTable, numberOfNodes, numberOfDeletedNodes, headTable,
    tailTable, getElement_setElement, length_setElement]
  refine ⟨?_, ?_, ?_, ?_, trivial⟩
  · rw [get_setElement _ _ (by omega)]
  · rw [get_setElement _ _ (by omega)]
  · rw [if_neg (by omega)]
  · rw [if_pos (by simp; omega), JSTaggedValue.getInt_int]

theorem field_zero : (0 : Int) ≤ 0 ∧ 0 < d.entrySize := by cases d <;> decide
theorem field_one : (0 : Int) ≤ 1 ∧ 1 < d.entrySize := by cases d <;> decide
theorem field_two : (0 : Int) ≤ 2 ∧ 2 < ListDerived.double.entrySize := by decide

/-- The fields of nodes do not share slots. -/
theorem getElement_setField {e : Nat} (j : Nat) (fits : Fits d l.length e) {o o' : Int}
    (ho : 0 ≤ o ∧ o < d.entrySize) (ho' : 0 ≤ o' ∧ o' < d.entrySize) :
    (l.setElement (dataIndex d e + o) v).getElement (dataIndex d j + o') =
      if j = e ∧ o' = o then v else l.getElement (dataIndex d j + o') := by
  rw [getElement_setElement]
  congr 1
  cases d <;>
    simp only [Fits, dataIndex, elementsStartIndex, ListDerived.entrySize] at * <;>
    simp only [eq_iff_iff] <;> omega

theorem cells_setData {e : Nat} (fits : Fits d l.length e) :
    (l.setElement (dataIndex d e) v).cells =
      Function.update l.cells e { l.cells e with data := v } := by
  funext j
  have data := getElement_setField v j fits field_zero field_zero
  have next := getElement_setField v j fits field_zero field_one
  simp only [Int.add_zero] at data next
  rw [Function.update_apply]
  cases d with
  | single =>
    simp only [cells, nextOf, data, next]
    by_cases same : j = e <;> simp [same]
  | double =>
    have prev := getElement_setField v j fits field_zero field_two
    simp only [Int.add_zero] at prev
    simp only [cells, nextOf, prevOf, data, next, prev]
    by_cases same : j = e <;> simp [same]

theorem cells_setNext {e : Nat} (fits : Fits d l.length e) :
    (l.setNext (dataIndex d e) i).cells =
      Function.update l.cells e { l.cells e with next := i } := by
  funext j
  have data := getElement_setField (.int i) j fits field_one field_zero
  have next := getElement_setField (.int i) j fits field_one field_one
  simp only [Int.add_zero] at data
  rw [Function.update_apply]
  cases d with
  | single =>
    simp only [setNext, cells, nextOf, data, next]
    by_cases same : j = e <;> simp [same]
  | double =>
    have prev := getElement_setField (.int i) j fits field_one field_two
    simp only [setNext, cells, nextOf, prevOf, data, next, prev]
    by_cases same : j = e <;> simp [same]

theorem cells_setPrev {l : TaggedDoubleList α} {e : Nat} (fits : Fits .double l.length e) :
    (l.setPrev (dataIndex .double e) i).cells =
      Function.update l.cells e { l.cells e with prev := i } := by
  funext j
  have data := getElement_setField (.int i) j fits field_two field_zero
  have next := getElement_setField (.int i) j fits field_two field_one
  have prev := getElement_setField (.int i) j fits field_two field_two
  simp only [Int.add_zero] at data
  rw [Function.update_apply]
  simp only [setPrev, cells, nextOf, prevOf, data, next, prev]
  by_cases same : j = e <;> simp [same]

end Write

/-! ## What the double list does in addition -/

section Double

variable {l : TaggedList d α} (i : Int) {e : Nat}

@[simp] theorem length_whenSetPrev (j : Int) :
    (l.whenDouble fun l => l.setPrev j i).length = l.length := by
  cases d
  · rfl
  · exact length_setPrev i j

@[simp] theorem hdr_whenSetPrev :
    (l.whenDouble fun l => l.setPrev (dataIndex d e) i).hdr = l.hdr := by
  cases d
  · rfl
  · exact hdr_setPrev i e

theorem cells_whenSetPrev (fits : Fits d l.length e) :
    (l.whenDouble fun l => l.setPrev (dataIndex d e) i).cells =
      Function.update l.cells e ((l.cells e).withPrev d i) := by
  cases d with
  | single =>
    funext j
    by_cases same : j = e
    · subst same
      simp [whenDouble, ListCell.withPrev]
    · simp [whenDouble, same]
  | double => exact cells_setPrev i fits

end Double

end TaggedList

end ArkRuntime
