import ArkRuntime.LightWeight.PlainArrayEntries

/-!
# Property access of a `PlainArray`

`JSAPIPlainArray::GetProperty` and `SetProperty` search for the key and hand the index that they find to
`Get` and `Set`, which search once more, with the index for a key. They are right for a key that is its own
index.
-/

namespace ArkRuntime

variable {α : Type}

namespace JSAPIPlainArray

/-- `static_cast<int32_t>(GetNumber())`, where a reference is a double with the given value. -/
def getNumber (double : α → Int) : JSTaggedValue α → Int
  | .int i => i
  | .ref a => double a
  | _ => 0

section
variable (number : JSTaggedValue α → Int)

/-- `Get`. -/
def get (obj : JSAPIPlainArray α) (key : JSTaggedValue α) : Option (JSTaggedValue α) := do
  let index ← obj.binarySearchKeys number (number key)
  if index < 0 then return .undefined else obj.values[index.toNat]?

/-- `Set`. -/
def set (obj : JSAPIPlainArray α) (index : Int) (value : JSTaggedValue α) : Option (JSAPIPlainArray α) :=
  obj.add number (.int index) value

/-- `GetProperty`. The bound in the message is a `uint32_t`. -/
def getProperty (obj : JSAPIPlainArray α) (key : JSTaggedValue α) :
    Option (Except BusinessError (JSTaggedValue α)) := do
  let size := obj.length
  let index ← obj.binarySearchKeys number key.getInt
  if index < 0 ∨ (size : Int) ≤ index then
    return .error (.outOfRange "index" (((size : Int) - 1) % 2 ^ 32) index)
  else
    let value ← obj.get number (.int index)
    return .ok value

/-- `SetProperty`. -/
def setProperty (obj : JSAPIPlainArray α) (key value : JSTaggedValue α) :
    Option (JSAPIPlainArray α × Bool) := do
  let size := obj.length
  let index ← obj.binarySearchKeys number key.getInt
  if index < 0 ∨ (size : Int) ≤ index then return (obj, false)
  else
    let obj ← obj.set number index value
    return (obj, true)

end

variable {double : α → Int} {obj obj' : JSAPIPlainArray α} {i : Nat} {k : Int} {v w : JSTaggedValue α}

theorem get_present {number : JSTaggedValue α → Int} (keyed : Keyed number obj) {key : JSTaggedValue α}
    (here : (obj.entries number)[i]? = some (number key, v)) : obj.get number key = some v := by
  obtain ⟨-, value, -⟩ := keyed.slot here
  simp only [get, search_present keyed here, Option.bind_eq_bind, Option.bind_some, Int.toNat_natCast]
  rw [if_neg (by omega), value]

/-- `GetProperty` gives the value that is stored under the key. -/
def GetsStored (double : α → Int) (obj : JSAPIPlainArray α) (k : Int) (v : JSTaggedValue α) : Prop :=
  obj.getProperty (getNumber double) (.int k) = some (.ok v)

/-- `SetProperty` changes the value of the key, and nothing else. -/
def SetsStored (double : α → Int) (obj : JSAPIPlainArray α) (k : Int) (w : JSTaggedValue α) : Prop :=
  ∃ obj', obj.setProperty (getNumber double) (.int k) w = some (obj', true) ∧
    obj'.length = obj.length ∧
    (obj'.entries (getNumber double)).map Prod.fst = (obj.entries (getNumber double)).map Prod.fst ∧
    ∀ k', (obj'.entries (getNumber double)).lookup k' =
      if k' = k then some w else (obj.entries (getNumber double)).lookup k'

theorem getProperty_eq (keyed : Keyed (getNumber double) obj)
    (here : (obj.entries (getNumber double))[i]? = some (k, v)) :
    obj.getProperty (getNumber double) (.int k) =
      (obj.get (getNumber double) (.int i)).map .ok := by
  have inside := (keyed.slot here).1
  simp only [getProperty, JSTaggedValue.getInt_int, search_present keyed here, Option.bind_eq_bind,
    Option.bind_some]
  rw [if_neg (by omega)]
  exact Option.map_eq_bind.symm

theorem setProperty_eq (keyed : Keyed (getNumber double) obj)
    (here : (obj.entries (getNumber double))[i]? = some (k, v)) (w : JSTaggedValue α) :
    obj.setProperty (getNumber double) (.int k) w =
      (obj.add (getNumber double) (.int i) w).map fun obj => (obj, true) := by
  have inside := (keyed.slot here).1
  simp only [setProperty, JSTaggedValue.getInt_int, search_present keyed here, Option.bind_eq_bind,
    Option.bind_some, set]
  rw [if_neg (by omega)]
  exact Option.map_eq_bind.symm

/-- Where the key is its own index, the second search finds it again. -/
theorem stored_of_index (keyed : Keyed (getNumber double) obj)
    (here : (obj.entries (getNumber double))[i]? = some ((i : Int), v)) :
    GetsStored double obj i v ∧ ∀ w, SetsStored double obj i w := by
  have itself : (obj.entries (getNumber double))[i]? = some (getNumber double (.int i), v) := here
  refine ⟨?_, fun w => ?_⟩
  · rw [GetsStored, getProperty_eq keyed here, get_present keyed itself]
    rfl
  · obtain ⟨obj', run, -, length, entries'⟩ := add_present keyed w itself
    refine ⟨obj', by rw [setProperty_eq keyed here, run]; rfl, length, ?_, fun k' => ?_⟩
    · have key : ((obj.entries (getNumber double)).map Prod.fst)[i]? = some (i : Int) := by
        rw [List.getElem?_map, here]
        rfl
      obtain ⟨inside, same⟩ := List.getElem?_eq_some_iff.mp key
      have kept := List.set_getElem_self inside
      rw [same] at kept
      rw [entries', List.map_set]
      exact kept
    · rw [entries']
      exact (keyed.increase.set here).2 k'

/-- Where it is not, `Set` leaves the value of the key as it was. -/
theorem index_of_sets (keyed : Keyed (getNumber double) obj)
    (here : (obj.entries (getNumber double))[i]? = some (k, v)) (changes : w ≠ v)
    (sets : SetsStored double obj k w) : k = i := by
  obtain ⟨obj', run, -, -, values⟩ := sets
  rw [setProperty_eq keyed here, Option.map_eq_some_iff] at run
  obtain ⟨after, added, same⟩ := run
  obtain rfl : after = obj' := congrArg Prod.fst same
  by_contra other
  have kept := (add_updates keyed added).2 k
  rw [values k, if_pos rfl, getNumber, if_neg other, keyed.increase.lookup_eq here] at kept
  exact changes (Option.some.inj kept)

/-- In every array that the operations lead to, the property accessors are right for a key exactly if it is its
    own index. -/
theorem property_of_run (double : α → Int) (operations : List (Op α))
    (allowed : Allowed (step (getNumber double)) Meets construct operations) :
    ∃ obj, run (step (getNumber double)) construct operations = some obj ∧
      ∀ (i : Nat) (k : Int) (v : JSTaggedValue α), (obj.entries (getNumber double))[i]? = some (k, v) →
        ((GetsStored double obj k v ∧ ∀ w, SetsStored double obj k w) ↔ k = i) := by
  obtain ⟨obj, reached, -⟩ := run_invariant
    (fun obj o roomy meets => roomy_step (getNumber double) obj o roomy meets) operations construct
    roomy_construct allowed
  have keyed := keyed_of_run keyed_construct operations reached
  refine ⟨obj, reached, fun i k v here => ⟨fun stored => ?_, ?_⟩⟩
  · by_cases hole : v = .hole
    · exact index_of_sets (w := .undefined) keyed here (by simp [hole]) (stored.2 _)
    · exact index_of_sets (w := .hole) keyed here (Ne.symm hole) (stored.2 _)
  · rintro rfl
    exact stored_of_index keyed here

theorem property_of_run_first :
    ∃ obj : JSAPIPlainArray Unit, run (step (getNumber fun _ => 0)) construct
        [.add (.int 0) (.int 7), .add (.int 5) (.int 8), .add (.int 9) (.int 6), .removeRangeFrom 2 3] = some obj ∧
      GetsStored (fun _ => 0) obj 0 (.int 7) ∧ SetsStored (fun _ => 0) obj 0 (.int 9) ∧
      ¬ (GetsStored (fun _ => 0) obj 5 (.int 8) ∧ ∀ w, SetsStored (fun _ => 0) obj 5 w) := by
  obtain ⟨obj, reached, stored⟩ := property_of_run (fun _ : Unit => 0)
    [.add (.int 0) (.int 7), .add (.int 5) (.int 8), .add (.int 9) (.int 6), .removeRangeFrom 2 3] (by decide)
  obtain rfl := Option.some.inj reached
  have first := (stored 0 0 (.int 7) rfl).mpr rfl
  have second := (stored 1 5 (.int 8) rfl).not.mpr (by decide)
  exact ⟨_, reached, first.1, first.2 _, second⟩

/-- The value of key 5 is at index 0: `GetProperty` looks for a key 0, and `SetProperty` adds one. -/
theorem property_fails :
    ∃ obj obj' : JSAPIPlainArray Unit, run (step (getNumber fun _ => 0)) construct
        [.add (.int 5) (.int 7)] = some obj ∧
      obj.entries (getNumber fun _ => 0) = [(5, .int 7)] ∧
      obj.getProperty (getNumber fun _ => 0) (.int 5) = some (.ok .undefined) ∧
      obj.setProperty (getNumber fun _ => 0) (.int 5) (.int 8) = some (obj', true) ∧
      obj'.entries (getNumber fun _ => 0) = [(0, .int 8), (5, .int 7)] ∧
      ¬ GetsStored (fun _ => 0) obj 5 (.int 7) ∧ ¬ SetsStored (fun _ => 0) obj 5 (.int 8) := by
  refine ⟨_, _, rfl, rfl, rfl, rfl, rfl, fun gets => ?_, ?_⟩
  · cases gets
  · rintro ⟨after, run, length, -⟩
    obtain rfl := congrArg Prod.fst (Option.some.inj run)
    cases length

end JSAPIPlainArray

end ArkRuntime
