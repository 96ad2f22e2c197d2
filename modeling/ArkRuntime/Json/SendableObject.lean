import ArkRuntime.Json.NumberValue
import ArkRuntime.Object.LayoutInfo

/-!
# Objects of a JSON text

`CreateJsonObject` and `CreateSJsonObject` on the same members. A sendable object finds a property by the pointer of
its key, and a property is asked for with the string of the string table. `Utf8JsonParser` takes every key from this
table; `Utf16JsonParser` makes a new string for a key without escapes.

A normal object is a map from indices and a map from strings, and so is a dictionary; that these keep what is put in is
not part of the parser. The search in a layout finds the position of a key.
-/

namespace ArkRuntime

namespace Json

variable {V : Type}

/-! ## Keys -/

/-- A string by its characters, and which object it is if it is not the one of the string table. -/
structure EcmaString where
  chars : List Nat
  object : Option Nat
deriving DecidableEq, Repr

def internString (chars : List Nat) : EcmaString := ⟨chars, none⟩

/-- A member of the text: does its key have escapes? -/
structure Member (V : Type) where
  name : List Nat
  escaped : Bool
  value : V

/-- Is the key taken from the string table? The empty string is a constant. -/
def Member.interned (utf16 : Bool) (m : Member V) : Bool := !utf16 || m.escaped || m.name.isEmpty

/-- The key of the `i`-th member. -/
def Member.key (utf16 : Bool) (i : Nat) (m : Member V) : EcmaString :=
  if m.interned utf16 then internString m.name else ⟨m.name, some i⟩

/-- The keys and values of the text, from the `i`-th member on. -/
def propertyList (utf16 : Bool) : Nat → List (Member V) → List (EcmaString × V)
  | _, [] => []
  | i, m :: ms => (m.key utf16 i, m.value) :: propertyList utf16 (i + 1) ms

/-- `ToElementIndex`. -/
def toElementIndex (chars : List Nat) : Option Nat :=
  if chars.isEmpty || 10 < chars.length then none
  else if chars.head? = some 0x30 then if chars.length = 1 then some 0 else none
  else if chars.all isDigit && digitsValue chars < 2 ^ 32 - 1 then some (digitsValue chars)
  else none

/-! ## Normal objects -/

structure JSObject (V : Type) where
  elements : Nat → Option V
  properties : EcmaString → Option V

/-- `SetPropertyByValue`; only characters that may start an index are looked at for one. -/
def JSObject.setPropertyByValue (obj : JSObject V) (key : EcmaString) (value : V) : JSObject V :=
  match toElementIndex key.chars with
  | some index => { obj with elements := Function.update obj.elements index (some value) }
  | none => { obj with properties := Function.update obj.properties (internString key.chars) (some value) }

/-- `CreateJsonObject`. -/
def createNormalObject (propertyList : List (EcmaString × V)) : JSObject V :=
  propertyList.foldl (fun obj p => obj.setPropertyByValue p.1 p.2) ⟨fun _ => none, fun _ => none⟩

/-- `GetProperty`. -/
def JSObject.getProperty (obj : JSObject V) (name : List Nat) : Option V :=
  match toElementIndex name with
  | some index => obj.elements index
  | none => obj.properties (internString name)

/-! ## Sendable objects -/

/-- `JSSharedObject::MAX_INLINE`. -/
def maxInline : Nat := 1020

/-- The layout of `AddFieldTypeToHClass`: a key that it has is not added again. -/
def addFieldTypes (layout : List EcmaString) : List EcmaString → List EcmaString
  | [] => layout
  | key :: keys =>
      addFieldTypes (if LayoutInfo.position layout key layout.length = -1 then layout ++ [key] else layout) keys

/-- `SetPropertyInlinedProps` for one value after the other; a write behind the object is `none`. -/
def setInlinedProps : Nat → List V → List (Option V) → Option (List (Option V))
  | _, [], props => some props
  | index, value :: values, props => do setInlinedProps (index + 1) values (← store props index (some value))

/-- `PutIfAbsent`. -/
def putIfAbsent (dict : EcmaString → Option V) (key : EcmaString) (value : V) : EcmaString → Option V :=
  match dict key with
  | some _ => dict
  | none => Function.update dict key (some value)

inductive JSSharedObject (V : Type) where
  | inlined (layout : List EcmaString) (props : List (Option V))
  | dictionary (dict : EcmaString → Option V)

/-- `CreateSJsonObject`. The object has as many inlined properties as its layout has keys. -/
def createSJsonObject (propertyList : List (EcmaString × V)) : Option (JSSharedObject V) :=
  if propertyList.length ≤ maxInline then do
    let layout := addFieldTypes [] (propertyList.map (·.1))
    let props ← setInlinedProps 0 (propertyList.map (·.2)) (List.replicate layout.length none)
    return .inlined layout props
  else some (.dictionary (propertyList.foldl (fun dict p => putIfAbsent dict p.1 p.2) fun _ => none))

/-- `GetProperty`; a sendable object of a text has no elements. -/
def JSSharedObject.getProperty (obj : JSSharedObject V) (name : List Nat) : Option V :=
  match toElementIndex name with
  | some _ => none
  | none =>
      match obj with
      | inlined layout props =>
          let entry := LayoutInfo.position layout (internString name) layout.length
          if entry = -1 then none else (props[entry.toNat]?).join
      | dictionary dict => dict (internString name)

/-! ## Members -/

variable {utf16 : Bool} {members : List (Member V)} {name : List Nat} {i : Nat}

def hasName (name : List Nat) (m : Member V) : Bool := m.name = name

theorem key_chars (m : Member V) (i : Nat) : (m.key utf16 i).chars = m.name := by
  rw [Member.key]
  split <;> rfl

theorem key_eq_intern_iff (m : Member V) (i : Nat) :
    m.key utf16 i = internString name ↔ (m.interned utf16 && hasName name m) = true := by
  rw [Member.key]
  cases m.interned utf16 <;> simp [internString, hasName]

/-- The value that is written last for a name. -/
def lastValue (members : List (Member V)) (name : List Nat) : Option V :=
  (members.reverse.find? (hasName name)).map (·.value)

/-- The first value of a name whose key is of the string table. -/
def firstInterned (utf16 : Bool) (members : List (Member V)) (name : List Nat) : Option V :=
  (members.find? fun m => m.interned utf16 && hasName name m).map (·.value)

theorem lastValue_cons (m : Member V) (name : List Nat) :
    lastValue (m :: members) name = (lastValue members name).or (if hasName name m then some m.value else none) := by
  rw [lastValue, List.reverse_cons, List.find?_append, lastValue]
  cases members.reverse.find? (hasName name) with
  | some m' => rfl
  | none => cases h : hasName name m <;> simp [h]

theorem lastValue_ne_none_iff : lastValue members name ≠ none ↔ ∃ m ∈ members, m.name = name := by
  rw [lastValue, ne_eq, Option.map_eq_none_iff, List.find?_eq_none]
  simp [hasName]

theorem firstInterned_cons (m : Member V) (name : List Nat) :
    firstInterned utf16 (m :: members) name =
      (if m.interned utf16 && hasName name m then some m.value else none).or (firstInterned utf16 members name) := by
  rw [firstInterned, List.find?_cons, firstInterned]
  cases m.interned utf16 && hasName name m <;> simp

/-! ## Indices -/

theorem digitsValue_concat (ds : List Nat) (d : Nat) : digitsValue (ds ++ [d]) = 10 * digitsValue ds + (d - 0x30) := by
  rw [digitsValue, List.foldl_append]
  rfl

theorem digits_eq {a b : List Nat} (length : a.length = b.length) (digits : IsDigits a) (digits' : IsDigits b)
    (value : digitsValue a = digitsValue b) : a = b := by
  induction a using List.reverseRecOn generalizing b with
  | nil => exact (List.length_eq_zero_iff.mp length.symm).symm
  | append_singleton a d ih =>
    rcases List.eq_nil_or_concat b with rfl | ⟨b, d', rfl⟩
    · simp at length
    rw [List.concat_eq_append] at length digits' value ⊢
    have here := isDigit_bounds.mp (digits d (by simp))
    have here' := isDigit_bounds.mp (digits' d' (by simp))
    rw [digitsValue_concat, digitsValue_concat] at value
    rw [List.length_append, List.length_append] at length
    have front := ih (Nat.add_right_cancel length) (fun c inside => digits c (List.mem_append_left _ inside))
      (fun c inside => digits' c (List.mem_append_left _ inside)) (by omega)
    have last : d = d' := by omega
    rw [front, last]

/-- A text without zeros in front is determined by its value. -/
theorem toElementIndex_cases {chars : List Nat} {index : Nat} (is : toElementIndex chars = some index) :
    IsDigits chars ∧ digitsValue chars = index ∧ (chars = [0x30] ∨ 10 ^ (chars.length - 1) ≤ index ∧ chars ≠ []) ∧
      index < 10 ^ chars.length := by
  rw [toElementIndex] at is
  split at is
  case isTrue => cases is
  case isFalse short =>
    cases chars with
    | nil => simp at short
    | cons d ds =>
      simp only [List.head?_cons, Option.some.injEq] at is
      split at is
      case isTrue zero =>
        split at is
        case isFalse => cases is
        case isTrue one =>
          cases is
          obtain rfl : ds = [] := by simpa using one
          subst zero
          exact ⟨by simp [IsDigits, isDigit], rfl, .inl rfl, by decide⟩
      case isFalse nonzero =>
        split at is
        case isFalse => cases is
        case isTrue all =>
          cases is
          rw [Bool.and_eq_true, List.all_eq_true] at all
          have digits : IsDigits (d :: ds) := all.1
          have upper := (digitsValue_le (d :: ds) digits 0).1
          have lower := (digitsValue_le ds (isDigits_cons.mp digits).2 (d - 0x30)).2
          have first := isDigit_bounds.mp (isDigits_cons.mp digits).1
          have power : 1 * 10 ^ ds.length ≤ (d - 0x30) * 10 ^ ds.length := Nat.mul_le_mul_right _ (by omega)
          refine ⟨digits, rfl, .inr ⟨?_, by simp⟩, ?_⟩
          · rw [digitsValue, List.foldl_cons, Nat.mul_zero, Nat.zero_add, List.length_cons, Nat.add_sub_cancel]
            omega
          · simpa [digitsValue] using upper

theorem toElementIndex_injective {a b : List Nat} {index : Nat} (first : toElementIndex a = some index)
    (second : toElementIndex b = some index) : a = b := by
  obtain ⟨digits, value, lower, upper⟩ := toElementIndex_cases first
  obtain ⟨digits', value', lower', upper'⟩ := toElementIndex_cases second
  have le {a b : List Nat} (lower : 10 ^ (a.length - 1) ≤ index ∧ a ≠ []) (upper : index < 10 ^ b.length) :
      a.length ≤ b.length := by
    have less := (Nat.pow_lt_pow_iff_right (by decide)).mp (Nat.lt_of_le_of_lt lower.1 upper)
    omega
  have zero {a : List Nat} (is : index = 0) (lower : 10 ^ (a.length - 1) ≤ index ∧ a ≠ []) : False := by
    have positive : 0 < 10 ^ (a.length - 1) := Nat.pow_pos (by decide)
    omega
  rcases lower with rfl | lower
  · exact (lower'.resolve_right (zero value.symm)).symm
  · rcases lower' with rfl | lower'
    · exact (zero value'.symm lower).elim
    · exact digits_eq (Nat.le_antisymm (le lower upper') (le lower' upper)) digits digits' (value.trans value'.symm)

/-! ## Reading a normal object -/

theorem getProperty_setPropertyByValue (obj : JSObject V) (key : EcmaString) (value : V) :
    (obj.setPropertyByValue key value).getProperty name =
      if key.chars = name then some value else obj.getProperty name := by
  rw [JSObject.getProperty, JSObject.getProperty, JSObject.setPropertyByValue]
  cases here : toElementIndex name with
  | none =>
    by_cases same : key.chars = name
    · rw [same, here, if_pos rfl]
      exact Function.update_self _ _ _
    · rw [if_neg same]
      cases toElementIndex key.chars with
      | some index => rfl
      | none => exact Function.update_of_ne (fun is => same (congrArg EcmaString.chars is).symm) _ _
  | some index =>
    by_cases same : key.chars = name
    · rw [same, here, if_pos rfl]
      exact Function.update_self _ _ _
    · rw [if_neg same]
      cases there : toElementIndex key.chars with
      | none => rfl
      | some index' =>
        have other : index ≠ index' := fun is => same (toElementIndex_injective (is ▸ there) here)
        exact Function.update_of_ne other _ _

/-- A normal object has the value that was written last. -/
theorem getProperty_foldl (obj : JSObject V) :
    ((propertyList utf16 i members).foldl (fun obj p => obj.setPropertyByValue p.1 p.2) obj).getProperty name =
      (lastValue members name).or (obj.getProperty name) := by
  induction members generalizing i obj with
  | nil => rfl
  | cons m ms ih =>
    rw [propertyList, List.foldl_cons, ih, getProperty_setPropertyByValue, key_chars, lastValue_cons, Option.or_assoc]
    by_cases same : m.name = name <;> simp [same, hasName]

/-! ## Reading a sendable object -/

theorem putIfAbsent_foldl (dict : EcmaString → Option V) :
    ((propertyList utf16 i members).foldl (fun dict p => putIfAbsent dict p.1 p.2) dict) (internString name) =
      (dict (internString name)).or (firstInterned utf16 members name) := by
  induction members generalizing i dict with
  | nil => exact (Option.or_none).symm
  | cons m ms ih =>
    rw [propertyList, List.foldl_cons, ih, firstInterned_cons, ← Option.or_assoc]
    congr 1
    rw [putIfAbsent]
    by_cases same : m.key utf16 i = internString name
    · rw [same, (key_eq_intern_iff m i).mp same]
      cases here : dict (internString name) <;> simp [here]
    · rw [if_neg (fun is => same ((key_eq_intern_iff m i).mpr is)), Option.or_none]
      cases dict (m.key utf16 i) with
      | some _ => rfl
      | none => exact Function.update_of_ne (Ne.symm same) _ _

theorem position_eq_neg_one_iff {layout : List EcmaString} {key : EcmaString} :
    LayoutInfo.position layout key layout.length = -1 ↔ key ∉ layout := by
  rw [LayoutInfo.position, List.take_length]
  split <;> simp_all

theorem addFieldTypes_length_le (layout keys : List EcmaString) :
    (addFieldTypes layout keys).length ≤ layout.length + keys.length := by
  induction keys generalizing layout with
  | nil => simp [addFieldTypes]
  | cons key keys ih =>
    rw [addFieldTypes, List.length_cons]
    refine Nat.le_trans (ih _) ?_
    split
    · rw [List.length_append, List.length_singleton]
      omega
    · omega

/-- No key is lost if and only if all are different. -/
theorem addFieldTypes_spec (layout keys : List EcmaString) (distinct : layout.Nodup) :
    ((layout ++ keys).Nodup → addFieldTypes layout keys = layout ++ keys) ∧
      (¬(layout ++ keys).Nodup → (addFieldTypes layout keys).length < layout.length + keys.length) := by
  induction keys generalizing layout with
  | nil => simp [addFieldTypes, distinct]
  | cons key keys ih =>
    rw [addFieldTypes, List.length_cons]
    by_cases new : key ∈ layout
    · rw [if_neg (fun is => position_eq_neg_one_iff.mp is new)]
      refine ⟨fun whole => ?_, fun _ => ?_⟩
      · exact absurd rfl ((List.nodup_append.mp whole).2.2 key new key List.mem_cons_self)
      · have le := addFieldTypes_length_le layout keys
        omega
    · rw [if_pos (position_eq_neg_one_iff.mpr new)]
      have next := ih (layout ++ [key]) (List.nodup_append.mpr ⟨distinct, by simp, by
        rintro a inside b there rfl
        rw [List.mem_singleton] at there
        exact new (there ▸ inside)⟩)
      rw [List.append_assoc, List.singleton_append, List.length_append, List.length_singleton] at next
      exact ⟨next.1, fun again => by have := next.2 again; omega⟩

theorem setInlinedProps_spec (values : List V) (index : Nat) (props : List (Option V)) (le : index ≤ props.length) :
    setInlinedProps index values props = if index + values.length ≤ props.length then
      some (props.take index ++ values.map some ++ props.drop (index + values.length)) else none := by
  induction values generalizing index props with
  | nil => simp [setInlinedProps, le]
  | cons value values ih =>
    rw [setInlinedProps, List.length_cons]
    by_cases inside : index < props.length
    · rw [store_of_lt inside, Option.bind_eq_bind, Option.bind_some, ih _ _ (by rw [List.length_set]; omega), List.length_set,
        show index + 1 + values.length = index + (values.length + 1) by omega]
      congr 2
      rw [List.drop_set_of_lt (by omega), List.map_cons, List.append_assoc, List.append_assoc, List.take_add_one,
        List.take_set_of_le (Nat.le_refl _), List.getElem?_set_self inside]
      simp
    · rw [store, if_neg inside, if_neg (by omega)]
      rfl

theorem intern_mem_keys_iff : internString name ∈ (propertyList utf16 i members).map (·.1) ↔
    name ∈ (members.filter (Member.interned utf16)).map (·.name) := by
  induction members generalizing i with
  | nil => simp [propertyList]
  | cons m ms ih =>
    rw [propertyList, List.map_cons, List.mem_cons, ih, eq_comm, key_eq_intern_iff, List.filter_cons]
    cases m.interned utf16 with
    | true => simp [hasName, @eq_comm _ name m.name]
    | false => simp

theorem fresh_mem_keys {chars : List Nat} {k : Nat}
    (inside : ⟨chars, some k⟩ ∈ (propertyList utf16 i members).map (·.1)) : i ≤ k := by
  induction members generalizing i with
  | nil => simp [propertyList] at inside
  | cons m ms ih =>
    rw [propertyList, List.map_cons, List.mem_cons, Member.key] at inside
    rcases inside with here | later
    · split at here
      · cases here
      · cases here
        exact Nat.le_refl _
    · exact Nat.le_of_succ_le (ih later)

/-- New strings are different from all others. -/
theorem keys_nodup_iff : ((propertyList utf16 i members).map (·.1)).Nodup ↔
    ((members.filter (Member.interned utf16)).map (·.name)).Nodup := by
  induction members generalizing i with
  | nil => simp [propertyList]
  | cons m ms ih =>
    rw [propertyList, List.map_cons, List.nodup_cons, ih, Member.key, List.filter_cons]
    cases interned : m.interned utf16 with
    | true =>
      simp only [if_true]
      rw [intern_mem_keys_iff, List.map_cons, List.nodup_cons]
    | false =>
      simp only [Bool.false_eq_true, if_false]
      exact and_iff_right fun inside => absurd (fresh_mem_keys inside) (by omega)

theorem firstInterned_eq_find : firstInterned utf16 members name =
    ((propertyList utf16 i members).find? (·.1 = internString name)).map (·.2) := by
  induction members generalizing i with
  | nil => rfl
  | cons m ms ih =>
    rw [firstInterned_cons, propertyList, List.find?_cons, @ih (i + 1)]
    by_cases same : m.key utf16 i = internString name
    · simp [same, (key_eq_intern_iff m i).mp same]
    · rw [if_neg fun is => same ((key_eq_intern_iff m i).mpr is)]
      simp [same]

/-- The value at the position of a key. -/
theorem read_position (l : List (EcmaString × V)) (key : EcmaString) :
    (if LayoutInfo.position (l.map (·.1)) key (l.map (·.1)).length = -1 then none
      else (((l.map (·.2)).map some)[(LayoutInfo.position (l.map (·.1)) key (l.map (·.1)).length).toNat]?).join) =
        (l.find? (·.1 = key)).map (·.2) := by
  rw [LayoutInfo.position, List.take_length]
  induction l with
  | nil => rfl
  | cons p l ih =>
    by_cases same : p.1 = key
    · subst same
      simp
    · have find : (p :: l).find? (·.1 = key) = l.find? (·.1 = key) := List.find?_cons_of_neg (by simpa using same)
      rw [find, ← ih, List.map_cons, List.map_cons, List.map_cons, List.idxOf_cons_ne _ same]
      by_cases inside : key ∈ l.map (·.1)
      · rw [if_pos inside, if_pos (List.mem_cons_of_mem _ inside), if_neg (by omega), if_neg (by omega),
          Int.toNat_natCast, Int.toNat_natCast]
        rfl
      · have absent : key ∉ p.1 :: l.map (·.1) := by
          rw [List.mem_cons, not_or]
          exact ⟨Ne.symm same, inside⟩
        rw [if_neg inside, if_neg absent, if_pos rfl, if_pos rfl]

theorem length_propertyList : (propertyList utf16 i members).length = members.length := by
  induction members generalizing i with
  | nil => rfl
  | cons m ms ih => rw [propertyList, List.length_cons, ih, List.length_cons]

/-- A sendable object, unless a key is repeated among the inlined ones, gives the first value whose key is of the string
    table. -/
theorem createSJsonObject_spec (utf16 : Bool) (members : List (Member V)) :
    (∃ obj, createSJsonObject (propertyList utf16 0 members) = some obj ∧ ∀ name, obj.getProperty name =
      if toElementIndex name = none then firstInterned utf16 members name else none) ∧
        (members.length ≤ maxInline → ((members.filter (Member.interned utf16)).map (·.name)).Nodup) ∨
      createSJsonObject (propertyList utf16 0 members) = none ∧
        ¬(members.length ≤ maxInline → ((members.filter (Member.interned utf16)).map (·.name)).Nodup) := by
  rw [createSJsonObject, length_propertyList]
  by_cases inline : members.length ≤ maxInline
  · rw [if_pos inline]
    have spec := addFieldTypes_spec [] ((propertyList utf16 0 members).map (·.1)) List.nodup_nil
    rw [List.nil_append, keys_nodup_iff, List.length_map, length_propertyList] at spec
    simp only [setInlinedProps_spec _ _ _ (Nat.zero_le _), Nat.zero_add, List.length_map, length_propertyList,
      List.length_replicate]
    by_cases distinct : ((members.filter (Member.interned utf16)).map (·.name)).Nodup
    · refine .inl ⟨⟨.inlined ((propertyList utf16 0 members).map (·.1)) (((propertyList utf16 0 members).map (·.2)).map some),
        ?_, fun name => ?_⟩, fun _ => distinct⟩
      · rw [spec.1 distinct, List.length_map, length_propertyList, if_pos (Nat.le_refl _), List.drop_replicate, Nat.sub_self]
        simp
      · rw [JSSharedObject.getProperty]
        cases toElementIndex name with
        | some index => rfl
        | none => exact (read_position _ _).trans firstInterned_eq_find.symm
    · have less := spec.2 distinct
      rw [if_neg (by simpa using less)]
      exact .inr ⟨rfl, fun all => distinct (all inline)⟩
  · rw [if_neg inline]
    refine .inl ⟨⟨_, rfl, fun name => ?_⟩, fun le => absurd le inline⟩
    rw [JSSharedObject.getProperty]
    cases toElementIndex name with
    | some index => rfl
    | none => exact putIfAbsent_foldl _

/-- The objects of the two forms agree. -/
def Agrees (utf16 : Bool) (members : List (Member V)) : Prop :=
  ∃ obj, createSJsonObject (propertyList utf16 0 members) = some obj ∧ ∀ name,
    obj.getProperty name = (createNormalObject (propertyList utf16 0 members)).getProperty name

/-- A normal object maps each key to the value that is written last for it; a sendable one does so if and only if no key
    is an index, the first key of the string table that there is for a name has the last value, and, unless there are
    too many members for inlined properties, no two keys of the table are the same. -/
theorem createSJsonObject_agrees_iff (utf16 : Bool) (members : List (Member V)) :
    (∀ name, (createNormalObject (propertyList utf16 0 members)).getProperty name = lastValue members name) ∧
      (Agrees utf16 members ↔ (∀ m ∈ members, toElementIndex m.name = none) ∧
        (∀ name, firstInterned utf16 members name = lastValue members name) ∧
        (members.length ≤ maxInline → ((members.filter (Member.interned utf16)).map (·.name)).Nodup)) := by
  have normal (name : List Nat) :
      (createNormalObject (propertyList utf16 0 members)).getProperty name = lastValue members name := by
    rw [createNormalObject, getProperty_foldl, JSObject.getProperty]
    split <;> exact Option.or_none
  refine ⟨normal, ?_⟩
  rw [Agrees]
  simp only [normal]
  rcases createSJsonObject_spec utf16 members with ⟨⟨obj, run, reads⟩, distinct⟩ | ⟨run, repeated⟩
  · constructor
    · rintro ⟨obj', run', agree⟩
      cases run.symm.trans run'
      have plain : ∀ m ∈ members, toElementIndex m.name = none := by
        intro m inside
        by_contra index
        have here := agree m.name
        rw [reads, if_neg index] at here
        exact lastValue_ne_none_iff.mpr ⟨m, inside, rfl⟩ here.symm
      refine ⟨plain, fun name => ?_, distinct⟩
      have here := agree name
      rw [reads] at here
      by_cases index : toElementIndex name = none
      · rwa [if_pos index] at here
      · rw [if_neg index] at here
        rw [← here, firstInterned, Option.map_eq_none_iff, List.find?_eq_none]
        intro m inside both
        rw [Bool.and_eq_true, hasName, decide_eq_true_eq] at both
        exact index (both.2 ▸ plain m inside)
    · rintro ⟨plain, first, -⟩
      refine ⟨obj, run, fun name => ?_⟩
      rw [reads]
      by_cases index : toElementIndex name = none
      · rw [if_pos index, first]
      · rw [if_neg index]
        by_contra some
        obtain ⟨m, inside, rfl⟩ := lastValue_ne_none_iff.mp (Ne.symm some)
        exact index (plain m inside)
  · constructor
    · rintro ⟨obj, run', -⟩
      rw [run] at run'
      cases run'
    · exact fun holds => absurd holds.2.2 repeated

/-- For `a` twice the second value is written behind the sendable object. -/
theorem createSJsonObject_repeated : ¬Agrees false [⟨[0x61], false, 1⟩, ⟨[0x61], false, 2⟩] := by
  rintro ⟨obj, run, -⟩
  have behind : createSJsonObject (propertyList false 0 [⟨[0x61], false, 1⟩, ⟨[0x61], false, 2⟩]) = none := rfl
  rw [behind] at run
  cases run

end Json

end ArkRuntime
