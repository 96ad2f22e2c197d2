import ArkRuntime.LightWeight.SetUpdate
import Mathlib.Data.List.Pairwise

/-!
# `AddAll` of `LightWeightSet`

When the two sets together do not fit, `EnsureCapacity` calls `SizeCopy`, which stores the longer copy of
the hashes as the values and the longer copy of the values as the hashes. `AddAll` then does what it is
for only where the exchange cannot be seen.
-/

namespace ArkRuntime

namespace JSAPILightWeightSet

variable {α : Type} {ops : SetOps α} {obj : JSAPILightWeightSet α} {value : JSTaggedValue α}

def Contains (ops : SetOps α) (obj : JSAPILightWeightSet α) (v : JSTaggedValue α) : Prop :=
  ∃ e ∈ obj.elements, ops.sameValue e v = true

theorem contains_of_mem (lawful : ops.Lawful) (mem : value ∈ obj.elements) : Contains ops obj value :=
  ⟨value, mem, lawful.refl value⟩

theorem Contains.congr (lawful : ops.Lawful) {v w : JSTaggedValue α} (contains : Contains ops obj v)
    (same : ops.sameValue v w = true) : Contains ops obj w := by
  obtain ⟨e, mem, is⟩ := contains
  exact ⟨e, mem, lawful.trans _ _ _ is same⟩

theorem Located.not_contains {r : Int} (located : Located ops obj value r) (inside : Inside obj) (absent : r < 0) :
    ¬ Contains ops obj value := by
  rintro ⟨e, mem, same⟩
  obtain ⟨i, here⟩ := List.getElem?_of_mem mem
  have below : i < obj.length := by
    rw [← length_elements inside]
    exact (List.getElem?_eq_some_iff.mp here).1
  rw [getElem?_elements inside below, Option.some.injEq] at here
  have no := located.absent absent i below
  rw [isAt, here, same] at no
  cases no

/-! ## The loop -/

/-- `n` elements can be added without a new array. -/
structure Space (obj : JSAPILightWeightSet α) (n : Nat) : Prop where
  values : obj.length + n < obj.values.length
  hashes : obj.values.length ≤ obj.hashes.length

variable {obj' : JSAPILightWeightSet α} {n : Nat} {src : Source α}

theorem Space.roomy (space : Space obj n) : Roomy obj := by
  have room := space.values
  exact ⟨by omega, space.hashes⟩

theorem Space.keep (space : Space obj (n + 1)) : Space obj n := by
  have room := space.values
  exact ⟨by omega, space.hashes⟩

theorem Space.inserted {p : Nat} {hash : JSTaggedValue α} (space : Space obj (n + 1))
    (inserted : Inserted obj obj' p hash value) : Space obj' n := by
  have room := space.values
  have le := space.hashes
  have length := inserted.length
  have hCap := inserted.hashCapacity
  have vCap := inserted.valueCapacity
  rw [if_neg (by omega)] at hCap vCap
  exact ⟨by omega, by omega⟩

/-- `Add` on a sorted set. -/
theorem add_ordered (lawful : ops.Lawful) (roomy : Roomy obj) (ordered : Ordered ops obj)
    (value : JSTaggedValue α) :
    (obj.add ops value = some (obj, false) ∧ Contains ops obj value) ∨
      ∃ obj' p, obj.add ops value = some (obj', true) ∧ ¬ Contains ops obj value ∧
        Inserted obj obj' p (SetOps.hashSlot (ops.hash value)) value ∧ Ordered ops obj' := by
  have inside := roomy.inside
  obtain ⟨r, -, high, locate, ⟨present, run⟩ | ⟨absent, obj', run, inserted⟩⟩ := add_spec ops roomy value
  · refine .inl ⟨run, obj.values.getD r.toNat .hole, ?_, (locate lawful ordered).found present⟩
    exact List.mem_of_getElem? (getElem?_elements inside (by omega))
  · have located := locate lawful ordered
    refine .inr ⟨obj', _, run, ?_, inserted, inserted.ordered_after lawful inside ordered absent located⟩
    exact located.not_contains inside absent

theorem Inserted.contains {p : Nat} {hash : JSTaggedValue α} (inside : Inside obj)
    (inserted : Inserted obj obj' p hash value) (v : JSTaggedValue α) :
    Contains ops obj' v ↔ ops.sameValue value v = true ∨ Contains ops obj v := by
  have place : p ≤ obj.elements.length := by
    rw [length_elements inside]
    exact inserted.place
  simp only [Contains, inserted.elements, List.mem_insertIdx place]
  constructor
  · rintro ⟨e, rfl | mem, same⟩
    · exact .inl same
    · exact .inr ⟨e, mem, same⟩
  · rintro (same | ⟨e, mem, same⟩)
    · exact ⟨value, .inl rfl, same⟩
    · exact ⟨e, .inr mem, same⟩

theorem getValueAt_of_lt (inside : Inside obj) {i : Nat} (below : i < obj.length) :
    obj.getValueAt i = some (obj.values.getD i .hole) := by
  have bound := inside.values
  rw [getValueAt, if_neg (by omega), List.getD_eq_getElem?_getD, List.getElem?_eq_getElem (by omega)]
  rfl

theorem drop_elements (inside : Inside obj) {i : Nat} (below : i < obj.length) :
    obj.elements.drop i = obj.values.getD i .hole :: obj.elements.drop (i + 1) := by
  have here := getElem?_elements inside below
  rw [List.getElem?_eq_getElem (by rw [length_elements inside]; exact below), Option.some.injEq] at here
  rw [← here]
  exact List.drop_eq_getElem_cons (by rw [length_elements inside]; exact below)

/-- The loop adds the elements of another set. -/
theorem addAllFrom_other (lawful : ops.Lawful) {src : JSAPILightWeightSet α} (source : Inside src)
    (n i : Nat) (obj : JSAPILightWeightSet α) (changed : Bool) (rest : i + n = src.length)
    (space : Space obj n) (ordered : Ordered ops obj) :
    ∃ obj' changed', addAllFrom ops (.other src) n i obj changed = some (obj', changed') ∧
      Ordered ops obj' ∧
      (∀ v, Contains ops obj' v ↔
        Contains ops obj v ∨ ∃ e ∈ src.elements.drop i, ops.sameValue e v = true) ∧
      (changed' = true ↔ changed = true ∨ ∃ e ∈ src.elements.drop i, ¬ Contains ops obj e) := by
  induction n generalizing i obj changed with
  | zero =>
    have nothing : src.elements.drop i = [] := by
      apply List.drop_eq_nil_of_le
      rw [length_elements source]
      omega
    refine ⟨obj, changed, rfl, ordered, fun v => ?_, ?_⟩ <;> rw [nothing] <;> simp
  | succ n ih =>
    have below : i < src.length := by omega
    have read : ((Source.other src).get obj).getValueAt i = some (src.values.getD i .hole) :=
      getValueAt_of_lt source below
    rw [drop_elements source below]
    generalize src.values.getD i .hole = x at *
    rcases add_ordered lawful space.roomy ordered x with
      ⟨run, present⟩ | ⟨obj1, p, run, absent, inserted, ordered1⟩
    · obtain ⟨obj', changed', loop, ordered', contents, flag⟩ :=
        ih (i + 1) obj (changed || false) (by omega) space.keep ordered
      refine ⟨obj', changed', ?_, ordered', fun v => ?_, ?_⟩
      · simp only [addAllFrom, read, Option.bind_eq_bind, Option.bind_some, run]
        exact loop
      · rw [contents v]
        simp only [List.mem_cons, exists_eq_or_imp]
        have there := fun same => present.congr lawful (w := v) same
        rw [← or_assoc, or_iff_left_of_imp there]
      · rw [flag]
        simp only [List.mem_cons, exists_eq_or_imp, Bool.or_false]
        rw [or_iff_right (not_not.mpr present)]
    · obtain ⟨obj', changed', loop, ordered', contents, flag⟩ :=
        ih (i + 1) obj1 (changed || true) (by omega) (space.inserted inserted) ordered1
      refine ⟨obj', changed', ?_, ordered', fun v => ?_, ?_⟩
      · simp only [addAllFrom, read, Option.bind_eq_bind, Option.bind_some, run]
        exact loop
      · rw [contents v, inserted.contains space.roomy.inside]
        simp only [List.mem_cons, exists_eq_or_imp]
        exact or_assoc.trans or_left_comm
      · rw [flag]
        simp only [List.mem_cons, exists_eq_or_imp, Bool.or_true, true_or, true_iff]
        exact .inr (.inl absent)

/-- A sorted set has all of its elements, so the loop changes nothing. -/
theorem addAllFrom_self (lawful : ops.Lawful) (roomy : Roomy obj) (ordered : Ordered ops obj) (n i : Nat)
    (changed : Bool) (rest : i + n = obj.length) :
    addAllFrom ops .self n i obj changed = some (obj, changed) := by
  induction n generalizing i with
  | zero => rfl
  | succ n ih =>
    have below : i < obj.length := by omega
    have read := getValueAt_of_lt roomy.inside below
    have present : Contains ops obj (obj.values.getD i .hole) := by
      apply contains_of_mem lawful
      exact List.mem_of_getElem? (getElem?_elements roomy.inside below)
    rcases add_ordered lawful roomy ordered (obj.values.getD i .hole) with
      ⟨run, -⟩ | ⟨_, _, _, absent, _⟩
    · simp only [addAllFrom, Source.get, read, Option.bind_eq_bind, Option.bind_some, run, Bool.or_false]
      exact ih (i + 1) (by omega)
    · exact absurd present absent

/-- Whatever the arrays hold, the loop returns, and it does not bring the slots into order. -/
theorem addAllFrom_returns (ops : SetOps α) (src : Source α) (n i : Nat) (obj : JSAPILightWeightSet α) (changed : Bool)
    (source : ∀ s, src = .other s → Inside s) (space : Space obj n) :
    ∃ obj' changed', addAllFrom ops src n i obj changed = some (obj', changed') ∧
      (Ordered ops obj' → Ordered ops obj) := by
  induction n generalizing i obj changed with
  | zero => exact ⟨obj, changed, rfl, id⟩
  | succ n ih =>
    have inside : Inside (src.get obj) := by
      cases src with
      | other s => exact source s rfl
      | self => exact space.roomy.inside
    have read : ∃ x, (src.get obj).getValueAt i = some x := by
      by_cases below : i < (src.get obj).length
      · exact ⟨_, getValueAt_of_lt inside below⟩
      · exact ⟨.undefined, if_pos (by omega)⟩
    obtain ⟨x, read⟩ := read
    obtain ⟨r, -, -, -, ⟨-, run⟩ | ⟨-, obj1, run, inserted⟩⟩ := add_spec ops space.roomy x
    · obtain ⟨obj', changed', loop, back⟩ := ih (i + 1) obj (changed || false) space.keep
      refine ⟨obj', changed', ?_, back⟩
      simp only [addAllFrom, read, Option.bind_eq_bind, Option.bind_some, run]
      exact loop
    · obtain ⟨obj', changed', loop, back⟩ := ih (i + 1) obj1 (changed || true) (space.inserted inserted)
      refine ⟨obj', changed', ?_, fun ordered => inserted.ordered_before (back ordered)⟩
      simp only [addAllFrom, read, Option.bind_eq_bind, Option.bind_some, run]
      exact loop

/-- The elements of both sets, and whether the argument has one that the set has not. -/
structure Union (ops : SetOps α) (obj : JSAPILightWeightSet α) (src : Source α)
    (obj' : JSAPILightWeightSet α) (changed : Bool) : Prop where
  contains : ∀ v, Contains ops obj' v ↔ Contains ops obj v ∨ Contains ops (src.get obj) v
  changed : changed = true ↔ ∃ e ∈ (src.get obj).elements, ¬ Contains ops obj e

/-- The loop on a sorted set. -/
theorem addAllFrom_ordered (lawful : ops.Lawful) (source : Inside (src.get obj))
    (space : Space obj (src.get obj).length) (ordered : Ordered ops obj) :
    ∃ obj' changed', addAllFrom ops src (src.get obj).length 0 obj false = some (obj', changed') ∧
      Ordered ops obj' ∧ Union ops obj src obj' changed' := by
  cases src with
  | other s =>
    obtain ⟨obj', changed', loop, ordered', contents, flag⟩ :=
      addAllFrom_other lawful source s.length 0 obj false (Nat.zero_add _) space ordered
    exact ⟨obj', changed', loop, ordered', contents, by simpa using flag⟩
  | self =>
    refine ⟨obj, false, addAllFrom_self lawful space.roomy ordered obj.length 0 false (Nat.zero_add _),
      ordered, fun v => (or_self_iff).symm, ?_⟩
    constructor
    · intro no
      cases no
    · rintro ⟨e, mem, absent⟩
      exact absurd (contains_of_mem lawful mem) absent

/-! ## `EnsureCapacity` -/

/-- The new capacity is the first doubling of the old one that is more than asked for. -/
theorem enlarged_spec {capacity : Nat} (minimumCapacity : Nat) (positive : 0 < capacity) :
    ∃ c, enlarged capacity minimumCapacity = some c ∧ minimumCapacity < c ∧
      ∀ bound, bound ≤ c ↔ ∀ k, minimumCapacity < capacity * 2 ^ k → bound ≤ capacity * 2 ^ k := by
  have rule : ∃ c, enlarged capacity minimumCapacity = some c ∧ _ :=
    iter_spec (I := fun n c => n = minimumCapacity + 1 - c ∧ ∃ k, c = capacity * 2 ^ k ∧
        ∀ j < k, capacity * 2 ^ j ≤ minimumCapacity)
      (Q := fun c => minimumCapacity < c ∧ ∃ k, c = capacity * 2 ^ k ∧
        ∀ j < k, capacity * 2 ^ j ≤ minimumCapacity)
      ?_ (minimumCapacity + 2) (minimumCapacity + 1 - capacity) capacity
      ⟨rfl, 0, (Nat.mul_one capacity).symm, fun j no => absurd no (Nat.not_lt_zero j)⟩ (by omega)
  · obtain ⟨c, run, more, k, rfl, before⟩ := rule
    refine ⟨_, run, more, fun bound => ⟨fun le j enough => ?_, fun all => all k more⟩⟩
    have behind : k ≤ j := by
      by_contra front
      exact absurd (before j (Nat.not_le.mp front)) (Nat.not_le.mpr enough)
    exact le.trans (Nat.mul_le_mul_left capacity (Nat.pow_le_pow_right Nat.two_pos behind))
  · rintro n c ⟨rfl, k, rfl, before⟩
    have positive' : 0 < capacity * 2 ^ k := Nat.mul_pos positive (Nat.two_pow_pos k)
    by_cases le : capacity * 2 ^ k ≤ minimumCapacity
    · have double : (capacity * 2 ^ k) <<< 1 = capacity * 2 ^ (k + 1) := by
        rw [Nat.shiftLeft_eq, Nat.pow_one, Nat.pow_succ, Nat.mul_assoc]
      have grows : capacity * 2 ^ (k + 1) = capacity * 2 ^ k * 2 := by
        rw [Nat.pow_succ, Nat.mul_assoc]
      refine .inl ⟨_, _, if_pos le, ?_, rfl, k + 1, double, fun j below => ?_⟩
      · rw [double]
        omega
      · rcases Nat.lt_succ_iff_lt_or_eq.mp below with less | rfl
        · exact before j less
        · exact le
    · exact .inr ⟨_, if_neg le, by omega, k, rfl, before⟩

/-- The set with its arrays exchanged. -/
def exchanged (obj : JSAPILightWeightSet α) : JSAPILightWeightSet α :=
  { obj with hashes := obj.values, values := obj.hashes }

/-- Two sets with the same slots in use. -/
structure SameSlots (obj obj' : JSAPILightWeightSet α) : Prop where
  length : obj.length = obj'.length
  hashes : obj.hashes.take obj.length = obj'.hashes.take obj'.length
  elements : obj.elements = obj'.elements

theorem SameSlots.ordered (same : SameSlots obj obj') : Ordered ops obj ↔ Ordered ops obj' := by
  rw [Ordered, Ordered, same.hashes, same.elements]

theorem SameSlots.source (same : SameSlots obj obj') (src : Source α) :
    (src.get obj).elements = (src.get obj').elements ∧ (src.get obj).length = (src.get obj').length := by
  cases src with
  | other s => exact ⟨rfl, rfl⟩
  | self => exact ⟨same.elements, same.length⟩

/-- `EnsureCapacity` when the arrays are too short. -/
theorem ensureCapacity_exchanges (roomy : Roomy obj) {minimumCapacity c : Nat}
    (small : obj.values.length ≤ minimumCapacity)
    (grown : enlarged obj.values.length minimumCapacity = some c) (more : minimumCapacity < c) :
    (obj.hashes.length ≤ c ∧ ∃ obj2, obj.ensureCapacity minimumCapacity = some obj2 ∧
        SameSlots obj2 (exchanged obj) ∧ obj2.length = obj.length ∧ obj2.values.length = c ∧
        obj2.hashes.length = c) ∨
      (c < obj.hashes.length ∧ obj.ensureCapacity minimumCapacity = none) := by
  have inside := roomy.inside
  have hh := inside.hashes
  have hv := inside.values
  have unfolded : obj.ensureCapacity minimumCapacity = obj.sizeCopy obj.values.length c := by
    rw [ensureCapacity]
    simp only [Nat.not_lt.mpr small, if_false]
    rw [grown]
    rfl
  rcases Nat.lt_or_ge c obj.hashes.length with long | fits
  · refine .inr ⟨long, ?_⟩
    have none : obj.hashes.copyArray obj.values.length c = none := by
      rw [Slots.copyArray, if_neg (by omega), if_pos (by omega), Slots.extendArray, if_neg (by omega)]
    rw [unfolded, sizeCopy, none]
    rfl
  · obtain ⟨h, copied, hLength, hSlots⟩ := Slots.copyArray_longer (a := obj.hashes)
      (show obj.values.length < c by omega) fits
    obtain ⟨v, copied', vLength, vSlots⟩ := Slots.copyArray_longer (a := obj.values)
      (show obj.values.length < c by omega) (by omega)
    refine .inl ⟨fits, ⟨v, h, obj.length⟩, ?_, ⟨rfl, vSlots _ hv, hSlots _ hh⟩, rfl, hLength, vLength⟩
    rw [unfolded, sizeCopy, copied]
    simp only [Option.bind_eq_bind, Option.bind_some]
    rw [copied']
    rfl

/-! ## `AddAll` -/

/-- `AddAll` returns the union, sorted, with the hashes of its elements. -/
def MeetsUnion (ops : SetOps α) (obj : JSAPILightWeightSet α) (src : Source α) : Prop :=
  ∃ obj' changed, obj.addAll ops src = some (obj', changed) ∧ Ordered ops obj' ∧
    Union ops obj src obj' changed

/-- The hash of a value, as the value that the hash array holds. -/
def hashValue (ops : SetOps α) (v : JSTaggedValue α) : JSTaggedValue α := SetOps.hashSlot (ops.hash v)

/-- Each element is its own hash, as a non-negative integer is, or the hash of its hash with both in the
    argument; and the elements ascend as numbers. -/
structure Exchangeable (ops : SetOps α) (obj : JSAPILightWeightSet α) (src : Source α) : Prop where
  own : ∀ e ∈ obj.elements, hashValue ops e = e ∨ hashValue ops (hashValue ops e) = e ∧
    Contains ops (src.get obj) e ∧ Contains ops (src.get obj) (hashValue ops e)
  ascend : obj.elements.Pairwise fun x y => x.getInt ≤ y.getInt

/-- No doubling of the capacity for which both sets are small enough is too short for the hash array. -/
def HashesFit (obj : JSAPILightWeightSet α) (size : Nat) : Prop :=
  ∀ k, size < obj.values.length * 2 ^ k → obj.hashes.length ≤ obj.values.length * 2 ^ k

/-! ## The exchange of the arrays -/

theorem Ordered.elements_exchanged (ordered : Ordered ops obj) :
    (exchanged obj).elements = obj.elements.map (hashValue ops) := ordered.hashes

theorem getInt_of_round {e : JSTaggedValue α} (round : hashValue ops (hashValue ops e) = e) :
    e.getInt = (ops.hash (hashValue ops e)).toNat := by
  conv_lhs => rw [← round]
  rfl

/-- The exchanged set is sorted with the right hashes if each element is the hash of its hash, and they
    ascend. -/
theorem Ordered.exchanged_iff (lawful : ops.Lawful) (ordered : Ordered ops obj) :
    Ordered ops (exchanged obj) ↔ (∀ e ∈ obj.elements, hashValue ops (hashValue ops e) = e) ∧
      obj.elements.Pairwise fun x y => x.getInt ≤ y.getInt := by
  have ascend (round : ∀ e ∈ obj.elements, hashValue ops (hashValue ops e) = e) :
      (obj.elements.map (hashValue ops)).Pairwise (fun x y => ops.hash x ≤ ops.hash y) ↔
        obj.elements.Pairwise fun x y => x.getInt ≤ y.getInt := by
    rw [List.pairwise_map]
    refine List.Pairwise.iff_of_mem fun {x y} hx hy => ?_
    rw [getInt_of_round (round x hx), getInt_of_round (round y hy), UInt32.le_iff_toNat_le, Int.ofNat_le]
  constructor
  · rintro ⟨hashes, sorted, -⟩
    rw [ordered.elements_exchanged] at hashes sorted
    have round : ∀ e ∈ obj.elements, hashValue ops (hashValue ops e) = e := by
      have same : obj.elements.map id = obj.elements.map fun e => hashValue ops (hashValue ops e) := by
        rw [List.map_id]
        exact hashes.trans (List.map_map ..)
      exact fun e mem => (List.map_inj_left.mp same e mem).symm
    exact ⟨round, (ascend round).mp sorted⟩
  · rintro ⟨round, ascending⟩
    refine ⟨?_, ?_, ?_⟩
    · change obj.elements = (exchanged obj).elements.map (hashValue ops)
      rw [ordered.elements_exchanged, List.map_map]
      exact ((List.map_congr_left round).trans (List.map_id _)).symm
    · rw [ordered.elements_exchanged]
      exact (ascend round).mpr ascending
    · rw [ordered.elements_exchanged, List.pairwise_map]
      refine ordered.distinct.imp_of_mem fun {x y} hx hy apart => ?_
      rw [← Bool.not_eq_true]
      intro same
      have equal : hashValue ops (hashValue ops x) = hashValue ops (hashValue ops y) :=
        congrArg SetOps.hashSlot (lawful.hash _ _ same)
      rw [round x hx, round y hy] at equal
      rw [equal, lawful.refl] at apart
      cases apart

/-- Two elements that are the hashes of each other stand in both orders, so they are one. -/
theorem own_of_contains (lawful : ops.Lawful) (ordered : Ordered ops obj)
    (round : ∀ e ∈ obj.elements, hashValue ops (hashValue ops e) = e)
    (ascend : obj.elements.Pairwise fun x y => x.getInt ≤ y.getInt) {e : JSTaggedValue α}
    (mem : e ∈ obj.elements) (contains : Contains ops obj (hashValue ops e)) : hashValue ops e = e := by
  obtain ⟨f, memF, same⟩ := contains
  have back : hashValue ops f = e := (congrArg SetOps.hashSlot (lawful.hash _ _ same)).trans (round e mem)
  have there : hashValue ops e = f := by rw [← back, round f memF]
  by_contra other
  have pairs : obj.elements.Pairwise fun x y => (ops.hash x ≤ ops.hash y ∧ x.getInt ≤ y.getInt) ∨
      (ops.hash y ≤ ops.hash x ∧ y.getInt ≤ x.getInt) := (ordered.sorted.and ascend).imp Or.inl
  have pair := @List.Pairwise.forall _ _ _ ⟨fun _ _ => Or.symm⟩ pairs e mem f memF
    fun is => other (there.trans is.symm)
  have atE := getInt_of_round (round e mem)
  have atF := getInt_of_round (round f memF)
  rw [there] at atE
  rw [back] at atF
  have equal : ops.hash e = ops.hash f := by
    apply UInt32.toNat_inj.mp
    simp only [UInt32.le_iff_toNat_le] at pair
    omega
  exact other ((congrArg SetOps.hashSlot equal).trans back)

theorem addAll_of_ensured (ops : SetOps α) {obj2 : JSAPILightWeightSet α}
    (ensured : obj.ensureCapacity (obj.length + (src.get obj).length) = some obj2)
    (length : (src.get obj).length = (src.get obj2).length) :
    obj.addAll ops src = addAllFrom ops src (src.get obj2).length 0 obj2 false := by
  rw [addAll]
  simp only [ensured, Option.bind_eq_bind, Option.bind_some]
  rw [length]

/-- What `AddAll` leaves when the arrays are too short, by the exchanged set. -/
theorem meetsUnion_iff_exchanged (lawful : ops.Lawful) (roomy : Roomy obj) (source : Inside (src.get obj))
    (small : obj.values.length ≤ obj.length + (src.get obj).length) :
    MeetsUnion ops obj src ↔ HashesFit obj (obj.length + (src.get obj).length) ∧ Ordered ops (exchanged obj) ∧
      (∀ v, Contains ops (exchanged obj) v ∨ Contains ops (src.get (exchanged obj)) v ↔
        Contains ops obj v ∨ Contains ops (src.get obj) v) ∧
      ((∃ e ∈ (src.get (exchanged obj)).elements, ¬ Contains ops (exchanged obj) e) ↔
        ∃ e ∈ (src.get obj).elements, ¬ Contains ops obj e) := by
  have room := roomy.values
  obtain ⟨c, grown, more, least⟩ := enlarged_spec (obj.length + (src.get obj).length)
    (show 0 < obj.values.length by omega)
  rcases ensureCapacity_exchanges roomy small grown more with
    ⟨fits, obj2, ensured, same, length, vLength, hLength⟩ | ⟨long, stuck⟩
  · obtain ⟨elements, srcLength⟩ := same.source src
    have count : (src.get (exchanged obj)).length = (src.get obj).length := by
      cases src <;> rfl
    have run := addAll_of_ensured ops ensured (count.symm.trans srcLength.symm)
    have space : Space obj2 (src.get obj2).length := ⟨by omega, by omega⟩
    have source2 : Inside (src.get obj2) := by
      cases src with
      | other s => exact source
      | self => exact space.roomy.inside
    have content (v : JSTaggedValue α) :
        Contains ops obj2 v ↔ Contains ops (exchanged obj) v := by rw [Contains, same.elements]; rfl
    have content' (v : JSTaggedValue α) : Contains ops (src.get obj2) v ↔
        Contains ops (src.get (exchanged obj)) v := by rw [Contains, elements]; rfl
    constructor
    · rintro ⟨obj', changed, returned, ordered', union⟩
      obtain ⟨obj3, changed3, loop, back⟩ := addAllFrom_returns ops src (src.get obj2).length 0
        obj2 false (fun s is => by subst is; exact source) space
      rw [run, loop] at returned
      cases returned
      have ordered2 := back ordered'
      obtain ⟨obj4, changed4, loop', -, union'⟩ := addAllFrom_ordered lawful source2 space ordered2
      rw [loop] at loop'
      cases loop'
      refine ⟨(least _).mp fits, same.ordered.mp ordered2, fun v => ?_, ?_⟩
      · rw [← content v, ← content' v, ← union'.contains v, union.contains v]
      · have flag := union'.changed.symm.trans union.changed
        simp only [content, elements] at flag
        exact flag
    · rintro ⟨-, ordered1, contains, changes⟩
      have ordered2 := same.ordered.mpr ordered1
      obtain ⟨obj', changed, loop, ordered', union⟩ := addAllFrom_ordered lawful source2 space ordered2
      refine ⟨obj', changed, by rw [run, loop], ordered', fun v => ?_, ?_⟩
      · rw [union.contains v, content v, content' v, contains v]
      · rw [union.changed, ← changes]
        simp only [content, elements]
  · refine iff_of_false ?_ fun given => absurd ((least _).mpr given.1) (Nat.not_le.mpr long)
    rintro ⟨obj', changed, returned, -⟩
    rw [addAll] at returned
    simp only [stuck, Option.bind_eq_bind, Option.bind_none] at returned
    cases returned

/-- The exchanged set has the elements it should have exactly if those that are not their own hash come from the
    argument, and their hashes too. -/
theorem exchanged_union_iff (lawful : ops.Lawful) (ordered : Ordered ops obj) (src : Source α)
    (round : ∀ e ∈ obj.elements, hashValue ops (hashValue ops e) = e)
    (ascend : obj.elements.Pairwise fun x y => x.getInt ≤ y.getInt) :
    ((∀ v, Contains ops (exchanged obj) v ∨ Contains ops (src.get (exchanged obj)) v ↔
        Contains ops obj v ∨ Contains ops (src.get obj) v) ∧
      ((∃ e ∈ (src.get (exchanged obj)).elements, ¬ Contains ops (exchanged obj) e) ↔
        ∃ e ∈ (src.get obj).elements, ¬ Contains ops obj e)) ↔
    ∀ e ∈ obj.elements, hashValue ops e = e ∨
      Contains ops (src.get obj) e ∧ Contains ops (src.get obj) (hashValue ops e) := by
  have own {e : JSTaggedValue α} := own_of_contains lawful ordered round ascend (e := e)
  have own' {e : JSTaggedValue α} (mem : e ∈ obj.elements) (contains : Contains ops (exchanged obj) e) :
      hashValue ops e = e := by
    obtain ⟨x, memX, same⟩ := contains
    rw [ordered.elements_exchanged] at memX
    obtain ⟨f, memF, rfl⟩ := List.mem_map.mp memX
    have back : f = hashValue ops e := (round f memF).symm.trans (congrArg SetOps.hashSlot (lawful.hash _ _ same))
    exact own mem (back ▸ contains_of_mem lawful memF)
  have hashed {e : JSTaggedValue α} (mem : e ∈ obj.elements) : Contains ops (exchanged obj) (hashValue ops e) := by
    apply contains_of_mem lawful
    rw [ordered.elements_exchanged]
    exact List.mem_map_of_mem mem
  by_cases all : ∀ e ∈ obj.elements, hashValue ops e = e
  · have same : (exchanged obj).elements = obj.elements := by
      rw [ordered.elements_exchanged]
      exact (List.map_congr_left all).trans (List.map_id _)
    have content (v : JSTaggedValue α) : Contains ops (exchanged obj) v ↔ Contains ops obj v := by
      rw [Contains, same]
      rfl
    refine iff_of_true ?_ fun e mem => .inl (all e mem)
    cases src with
    | other s => exact ⟨fun v => or_congr_left (content v), by simp only [content]; rfl⟩
    | self => exact ⟨fun v => or_congr (content v) (content v), by simp only [content, Source.get, same]⟩
  cases src with
  | self =>
    refine iff_of_false (fun union => all fun e mem => ?_) fun given => all fun e mem => ?_
    · exact own mem (or_self_iff.mp ((union.1 (hashValue ops e)).mp (.inl (hashed mem))))
    · exact (given e mem).elim id fun both => own mem both.2
  | other s =>
    constructor
    · rintro ⟨contains, -⟩ e mem
      refine or_iff_not_imp_left.mpr fun other => ⟨?_, ?_⟩
      · exact ((contains e).mpr (.inl (contains_of_mem lawful mem))).resolve_left fun here => other (own' mem here)
      · exact ((contains _).mp (.inl (hashed mem))).resolve_left fun here => other (own mem here)
    · intro given
      constructor
      · intro v
        constructor
        · rintro (⟨x, mem, same⟩ | there)
          · rw [ordered.elements_exchanged] at mem
            obtain ⟨e, here, rfl⟩ := List.mem_map.mp mem
            rcases given e here with fixed | both
            · exact .inl ⟨e, here, fixed ▸ same⟩
            · exact .inr (both.2.congr lawful same)
          · exact .inr there
        · rintro (⟨e, mem, same⟩ | there)
          · rcases given e mem with fixed | both
            · exact .inl ((hashed mem).congr lawful (fixed.symm ▸ same))
            · exact .inr (both.1.congr lawful same)
          · exact .inr there
      · obtain ⟨e, other⟩ := not_forall.mp all
        obtain ⟨mem, other⟩ := Classical.not_imp.mp other
        obtain ⟨first, second⟩ := (given e mem).resolve_left other
        obtain ⟨x, memX, same⟩ := first
        obtain ⟨y, memY, same'⟩ := second
        refine iff_of_true ⟨x, memX, fun here => other (own' mem (here.congr lawful same))⟩
          ⟨y, memY, fun here => other (own mem (here.congr lawful same'))⟩

theorem lightWeightSet_addAll_iff (ops : SetOps α) (lawful : ops.Lawful) (obj : JSAPILightWeightSet α)
    (src : Source α) (roomy : Roomy obj) (ordered : Ordered ops obj) (source : Inside (src.get obj)) :
    MeetsUnion ops obj src ↔ obj.length + (src.get obj).length < obj.values.length ∨
      HashesFit obj (obj.length + (src.get obj).length) ∧ Exchangeable ops obj src := by
  by_cases enough : obj.length + (src.get obj).length < obj.values.length
  · have ensured : obj.ensureCapacity (obj.length + (src.get obj).length) = some obj := if_pos enough
    obtain ⟨obj', changed, loop, ordered', union⟩ :=
      addAllFrom_ordered lawful source ⟨enough, roomy.hashes⟩ ordered
    exact ⟨fun _ => .inl enough,
      fun _ => ⟨obj', changed, by rw [addAll_of_ensured ops ensured rfl, loop], ordered', union⟩⟩
  · rw [meetsUnion_iff_exchanged lawful roomy source (Nat.not_lt.mp enough), or_iff_right enough,
      ordered.exchanged_iff lawful]
    refine and_congr_right fun _ => ⟨?_, ?_⟩
    · rintro ⟨⟨round, ascend⟩, union⟩
      refine ⟨fun e mem => ?_, ascend⟩
      exact ((exchanged_union_iff lawful ordered src round ascend).mp union e mem).imp_right fun both =>
        ⟨round e mem, both⟩
    · rintro ⟨own, ascend⟩
      have round : ∀ e ∈ obj.elements, hashValue ops (hashValue ops e) = e := fun e mem =>
        (own e mem).elim (fun fixed => by rw [fixed, fixed]) (·.1)
      exact ⟨⟨round, ascend⟩, (exchanged_union_iff lawful ordered src round ascend).mpr fun e mem =>
        (own e mem).imp_right (·.2)⟩

theorem lawful_unitOps : unitOps.Lawful := by
  refine ⟨fun x => ?_, fun x y same => ?_, fun x y z first second => ?_, fun x y same => ?_⟩
  · exact beq_self_eq_true x
  · exact beq_iff_eq.mpr (beq_iff_eq.mp same).symm
  · exact beq_iff_eq.mpr ((beq_iff_eq.mp first).trans (beq_iff_eq.mp second))
  · rw [beq_iff_eq.mp same]

/-- A set with one element that is not its own hash. -/
def oneElement : JSAPILightWeightSet Unit :=
  ⟨.int 5 :: Slots.newTaggedArray 7, .ref () :: Slots.newTaggedArray 7, 1⟩

/-- Integers are their own hashes: eight of them do not fit into eight slots, and the exchange is not seen. -/
theorem lightWeightSet_addAll_iff_integers :
    MeetsUnion unitOps ⟨.int 10 :: Slots.newTaggedArray 7, .int 10 :: Slots.newTaggedArray 7, 1⟩
      (.other ⟨[1, 2, 3, 4, 10, 16, 17].map .int, [1, 2, 3, 4, 10, 16, 17].map .int, 7⟩) := by
  have fits : ∀ k, 1 + 7 < 8 * 2 ^ k → 8 ≤ 8 * 2 ^ k := fun k more => by omega
  apply (lightWeightSet_addAll_iff unitOps lawful_unitOps _ _ ⟨by decide, by decide⟩
    ⟨by decide, List.pairwise_singleton _ _, List.pairwise_singleton _ _⟩ ⟨by decide, by decide⟩).mpr
  refine .inr ⟨fits, fun e mem => .inl ?_, List.pairwise_singleton _ _⟩
  obtain rfl := List.mem_singleton.mp mem
  rfl

/-- Eight elements do not fit into eight slots: the hash 5 of the first one becomes an element. -/
theorem lightWeightSet_addAll_fails_when_enlarged :
    ∃ src, run (step unitOps) construct [.add (.ref ())] = some oneElement ∧
      run (step unitOps) construct ([10, 11, 12, 13, 14, 15, 16].map fun i => .add (.int i)) = some src ∧
      (∃ obj' changed, oneElement.addAll unitOps (.other src) = some (obj', changed) ∧
        obj'.elements = [5, 10, 11, 12, 13, 14, 15, 16].map .int) ∧
      ¬ MeetsUnion unitOps oneElement (.other src) := by
  have computed : (run (step unitOps) construct ([10, 11, 12, 13, 14, 15, 16].map
      fun i => .add (.int i))).map (fun src => (oneElement.addAll unitOps (.other src)).map
        fun r => r.1.elements) = some (some ([5, 10, 11, 12, 13, 14, 15, 16].map .int)) := by
    decide +kernel
  obtain ⟨src, reached, added⟩ := Option.map_eq_some_iff.mp computed
  obtain ⟨⟨obj', changed⟩, returned, elements⟩ := Option.map_eq_some_iff.mp added
  refine ⟨src, rfl, reached, ⟨obj', changed, returned, elements⟩, ?_⟩
  rintro ⟨obj2, changed2, returned2, -, union⟩
  rw [returned] at returned2
  cases returned2
  obtain ⟨e, mem, same⟩ := (union.contains (.ref ())).mpr (.inl ⟨.ref (), by decide, rfl⟩)
  rw [elements] at mem
  obtain ⟨i, -, rfl⟩ := List.mem_map.mp mem
  cases same

end JSAPILightWeightSet

end ArkRuntime
