import ArkRuntime.LinkedHash.OrderedMap
import ArkRuntime.Misc.Iteration

/-!
# Map iterators

An iterator of a map (`ecmascript/js_map_iterator.cpp`) keeps a table and an index. When the map has
moved on to another table, the iterator follows the chain of retired tables, and in each of them takes
from its index the number of removed entries before it. So its place among the entries that are not
removed never changes, whatever is done to the map, and the iterator yields what the iteration over an
ordered map yields.
-/

namespace ArkRuntime

namespace LinkedHash

open LinkedHashTable Iteration

variable {α : Type}

/-! ## The iterator and the map together -/

/-- The operations on the map, and `next` of the iterator. -/
inductive IterOp (α : Type) where
  | change (op : HashOp α)
  | next

structure MapState (α : Type) where
  map : HashState .map α
  iterator : JSMapIterator

def IterOp.step (rt : HashRuntime α) (s : MapState α) :
    IterOp α → Option (MapState α × Option (IterResult α))
  | .change op => (op.step rt s.map).map fun map => (⟨map, s.iterator⟩, none)
  | .next => (s.iterator.nextInternal s.map.heap).map fun r => (⟨s.map, r.2⟩, some r.1)

/-- A Hole is no key. -/
def IterOp.Valid : IterOp α → Prop
  | .change op => op.Valid .map
  | .next => True

/-- What an operation is for the abstract map. -/
def HashOp.event : HashOp α → MapEvent (JSTaggedValue α) (JSTaggedValue α)
  | .insert key value => .set key value
  | .remove key => .erase key
  | .delete key => .erase key
  | .shrink _ => .keep
  | .clear => .clear

def IterOp.event : IterOp α → MapEvent (JSTaggedValue α) (JSTaggedValue α)
  | .change op => op.event
  | .next => .next

/-- The result that hands out an entry, or says that there is none. -/
def resultOf (kind : IterationKind) :
    Option (Live (JSTaggedValue α) (JSTaggedValue α)) → IterResult α
  | some l => ⟨JSMapIterator.itemOf kind l.key l.value, false⟩
  | none => ⟨.tagged .undefined, true⟩

/-! ## Slots with births -/

/-- A slot and the birth of its entry. -/
abbrev Dated (α : Type) := Nat × Slot α

def liveOf (x : Dated α) : Option (Live (JSTaggedValue α) (JSTaggedValue α)) :=
  x.2.map fun p => ⟨x.1, p.1, p.2⟩

/-- The entries that are alive. -/
def livesOf (dated : List (Dated α)) : List (Live (JSTaggedValue α) (JSTaggedValue α)) :=
  dated.filterMap liveOf

def slotsOf (dated : List (Dated α)) : List (Slot α) := dated.map Prod.snd

/-- The slots of the compact table. -/
def compactDated (dated : List (Dated α)) : List (Dated α) := dated.filter fun x => x.2.isSome

variable {t : LinkedHashTable .map α} {e : Nat} {key x : JSTaggedValue α}

section Dated

variable {dated as bs : List (Dated α)}

theorem livesOf_append : livesOf (as ++ bs) = livesOf as ++ livesOf bs := List.filterMap_append

theorem reduceOption_slotsOf (dated : List (Dated α)) :
    (slotsOf dated).reduceOption = (livesOf dated).map fun l => (l.key, l.value) := by
  induction dated with
  | nil => rfl
  | cons x dated ih =>
    obtain ⟨birth, _ | p⟩ := x
    · exact ih
    · exact congrArg (p :: ·) ih

theorem slotsOf_compactDated (dated : List (Dated α)) :
    slotsOf (compactDated dated) = compact (slotsOf dated) := by
  induction dated with
  | nil => rfl
  | cons x dated ih =>
    obtain ⟨birth, _ | p⟩ := x
    · exact ih
    · exact congrArg (some p :: ·) ih

theorem livesOf_compactDated (dated : List (Dated α)) :
    livesOf (compactDated dated) = livesOf dated := by
  induction dated with
  | nil => rfl
  | cons x dated ih =>
    obtain ⟨birth, _ | p⟩ := x
    · exact ih
    · exact congrArg (⟨birth, p.1, p.2⟩ :: ·) ih

theorem split_dated {s : Slot α} (here : (slotsOf dated)[e]? = some s) :
    ∃ as birth bs, dated = as ++ (birth, s) :: bs ∧ as.length = e ∧
      ∀ s', (slotsOf dated).set e s' = slotsOf (as ++ (birth, s') :: bs) := by
  obtain ⟨x, there, rfl⟩ : ∃ x, dated[e]? = some x ∧ x.2 = s := by
    simpa [slotsOf] using here
  obtain ⟨below, same⟩ := List.getElem?_eq_some_iff.mp there
  have length : (dated.take e).length = e := by
    rw [List.length_take]
    omega
  have parts : dated = dated.take e ++ x :: dated.drop (e + 1) := by
    rw [← same, List.getElem_cons_drop, List.take_append_drop]
  refine ⟨dated.take e, x.1, dated.drop (e + 1), parts, length, fun s' => ?_⟩
  have mapped : e < (dated.map Prod.snd).length := by simpa using below
  rw [slotsOf, List.set_eq_take_append_cons_drop, if_pos mapped]
  simp [slotsOf, List.map_take, List.map_drop]

end Dated

/-! ## The place of an iterator -/

/-- The entries before the `j`-th slot are those born before `p`. -/
structure Cut (dated : List (Dated α)) (j p : Nat) : Prop where
  inside : j ≤ dated.length
  before : ∀ i x, i < j → dated[i]? = some x → x.2.isSome = true → x.1 < p
  after : ∀ i x, j ≤ i → dated[i]? = some x → x.2.isSome = true → p ≤ x.1

/-- From one table and index to another, along retired tables. -/
inductive Walk (h : TableHeap .map α) : Nat → Int → Nat → Int → Prop where
  | refl {a : Nat} {i : Int} : Walk h a i a i
  | step {a b c : Nat} {i j : Int} : (h.table a).nextTable = some b →
      Walk h b (i - (h.table a).getDeletedElementsAt i) c j → Walk h a i c j

/-- A retired table names a later one. -/
def Linked (h : TableHeap .map α) : Prop :=
  ∀ a < h.size, ∀ b, (h.table a).nextTable = some b → a < b ∧ b < h.size

/-- The iterator stands in the current table, at the place `p`. -/
def Stands (h : TableHeap .map α) (address : Nat) (dated : List (Dated α)) (it : JSMapIterator) :
    Option Nat → Prop
  | none => it.iteratedMap = none
  | some p => ∃ a j, it.iteratedMap = some a ∧ a < h.size ∧ Walk h a it.nextIndex address (j : Nat) ∧
      Cut dated j p

section Walk

variable {h h' : TableHeap .map α} {a b c : Nat} {i j k : Int}

theorem Walk.trans (first : Walk h a i b j) (second : Walk h b j c k) : Walk h a i c k := by
  induction first with
  | refl => exact second
  | step next _ ih => exact .step next (ih second)

/-- Retired tables do not change. -/
theorem Walk.frame (linked : Linked h)
    (same : ∀ x < h.size, (h.table x).nextTable ≠ none → h'.table x = h.table x)
    (walk : Walk h a i b j) (allocated : a < h.size) : Walk h' a i b j := by
  induction walk with
  | refl => exact .refl
  | step next _ ih =>
    have unchanged := same _ allocated (by rw [next]; simp)
    refine .step (by rw [unchanged]; exact next) ?_
    rw [unchanged]
    exact ih (linked _ allocated _ next).2

theorem Walk.update (linked : Linked h) (walk : Walk h a i b j)
    (current : (h.table b).nextTable = none) (allocated : a < h.size) {fuel : Nat}
    (enough : h.size - a < fuel) :
    iter (JSMapIterator.updateStep h) fuel (a, i) = some (b, j) := by
  induction walk generalizing fuel with
  | refl =>
    obtain ⟨fuel, rfl⟩ : ∃ k, fuel = k + 1 := ⟨fuel - 1, by omega⟩
    apply iter_inr
    simp only [JSMapIterator.updateStep, current]
  | @step x y z i' j' next _ ih =>
    obtain ⟨fuel, rfl⟩ : ∃ k, fuel = k + 1 := ⟨fuel - 1, by omega⟩
    obtain ⟨later, inside⟩ := linked _ allocated _ next
    have again : JSMapIterator.updateStep h (x, i') =
        .inl (y, i' - (h.table x).getDeletedElementsAt i') := by
      simp only [JSMapIterator.updateStep, next]
    rw [iter_inl fuel again]
    exact ih current inside (by omega)

end Walk

/-! ## Changes of the map -/

section Cut

variable {dated as bs : List (Dated α)} {j p birth : Nat} {s s' : Slot α}

/-- An entry gets another value, or is removed. -/
theorem Cut.replace (cut : Cut (as ++ (birth, s) :: bs) j p)
    (alive : s'.isSome = true → s.isSome = true) : Cut (as ++ (birth, s') :: bs) j p := by
  have old {i : Nat} {x : Dated α} (here : (as ++ (birth, s') :: bs)[i]? = some x)
      (isLive : x.2.isSome = true) :
      ∃ y, (as ++ (birth, s) :: bs)[i]? = some y ∧ y.1 = x.1 ∧ y.2.isSome = true := by
    rcases Nat.lt_trichotomy i as.length with below | same | above
    · rw [List.getElem?_append_left below] at here
      exact ⟨x, by rw [List.getElem?_append_left below, here], rfl, isLive⟩
    · subst same
      simp only [List.getElem?_append_right (Nat.le_refl _), Nat.sub_self, List.getElem?_cons_zero,
        Option.some.injEq] at here
      subst here
      exact ⟨(birth, s), by simp, rfl, alive isLive⟩
    · obtain ⟨k, rfl⟩ : ∃ k, i = as.length + (k + 1) := ⟨i - as.length - 1, by omega⟩
      rw [List.getElem?_append_right (by omega), Nat.add_sub_cancel_left,
        List.getElem?_cons_succ] at here
      refine ⟨x, ?_, rfl, isLive⟩
      rw [List.getElem?_append_right (by omega), Nat.add_sub_cancel_left, List.getElem?_cons_succ, here]
  refine ⟨by simpa using cut.inside, fun i x less here isLive => ?_, fun i x more here isLive => ?_⟩
  · obtain ⟨y, there, date, live⟩ := old here isLive
    rw [← date]
    exact cut.before i y less there live
  · obtain ⟨y, there, date, live⟩ := old here isLive
    rw [← date]
    exact cut.after i y more there live

/-- A new entry is born after the position. -/
theorem Cut.append (cut : Cut dated j p) (late : p ≤ birth) : Cut (dated ++ [(birth, s)]) j p := by
  have inside := cut.inside
  refine ⟨by simp; omega, fun i x less here isLive => ?_, fun i x more here isLive => ?_⟩
  · rw [List.getElem?_append_left (by omega)] at here
    exact cut.before i x less here isLive
  · rcases Nat.lt_or_ge i dated.length with below | above
    · rw [List.getElem?_append_left below] at here
      exact cut.after i x more here isLive
    · rw [List.getElem?_append_right above, List.getElem?_singleton] at here
      split_ifs at here
      rw [← Option.some.inj here]
      exact late

/-- The place in the compact table. -/
theorem Cut.compact (cut : Cut dated j p) :
    Cut (compactDated dated) (compactDated (dated.take j)).length p := by
  have parts : compactDated dated = compactDated (dated.take j) ++ compactDated (dated.drop j) := by
    rw [compactDated, compactDated, compactDated, ← List.filter_append, List.take_append_drop]
  rw [parts]
  refine ⟨by simp, fun i x less here isLive => ?_, fun i x more here isLive => ?_⟩
  · rw [List.getElem?_append_left less] at here
    obtain ⟨k, there⟩ := List.mem_iff_getElem?.mp (List.mem_of_mem_filter (List.mem_of_getElem? here))
    rw [List.getElem?_take] at there
    split_ifs at there with below
    exact cut.before k x below there isLive
  · rw [List.getElem?_append_right more] at here
    obtain ⟨k, there⟩ := List.mem_iff_getElem?.mp (List.mem_of_mem_filter (List.mem_of_getElem? here))
    rw [List.getElem?_drop] at there
    exact cut.after (j + k) x (by omega) there isLive

/-- The index in the compact table is what `Update` computes. -/
theorem compact_index (inside : j ≤ dated.length) :
    (j : Int) - holes ((slotsOf dated).take j) = (compactDated (dated.take j)).length := by
  have count := holes_add ((slotsOf dated).take j)
  have length : ((slotsOf dated).take j).length = j := by
    rw [List.length_take, slotsOf, List.length_map]
    omega
  have alive : ((slotsOf dated).take j).reduceOption.length = (compactDated (dated.take j)).length := by
    rw [slotsOf, ← List.map_take, ← length_compact]
    change (LinkedHash.compact (slotsOf (dated.take j))).length = _
    rw [← slotsOf_compactDated, slotsOf, List.length_map]
  omega

end Cut

section Stands

variable {h h' : TableHeap .map α} {a a' : Nat} {dated dated' : List (Dated α)} {it : JSMapIterator}
  {position : Option Nat} {slots' : List (Slot α)}

/-- The current table changes, and nothing else. -/
theorem Stands.stay (linked : Linked h) (stands : Stands h a dated it position) (size : h'.size = h.size)
    (same : ∀ x < h.size, (h.table x).nextTable ≠ none → h'.table x = h.table x)
    (cut : ∀ j p, position = some p → Cut dated j p → Cut dated' j p) :
    Stands h' a dated' it position := by
  cases position with
  | none => exact stands
  | some p =>
    obtain ⟨b, j, here, allocated, walk, place⟩ := stands
    exact ⟨b, j, here, by omega, walk.frame linked same allocated, cut j p rfl place⟩

/-- The current table is replaced by another. -/
theorem Stands.move (linked : Linked h) (stands : Stands h a dated it position)
    (size : h.size ≤ h'.size) (current : (h.table a).nextTable = none)
    (same : ∀ x, x ≠ a → x < h.size → h'.table x = h.table x)
    (next : (h'.table a).nextTable = some a')
    (cut : ∀ j p, Cut dated j p → ∃ j' : Nat,
      (j : Int) - (h'.table a).getDeletedElementsAt j = j' ∧ Cut dated' j' p) :
    Stands h' a' dated' it position := by
  cases position with
  | none => exact stands
  | some p =>
    obtain ⟨b, j, here, allocated, walk, place⟩ := stands
    obtain ⟨j', index, place'⟩ := cut j p place
    refine ⟨b, j', here, by omega, ?_, place'⟩
    have old : Walk h' b it.nextIndex a j := by
      refine walk.frame linked (fun x less retired => same x (fun isCurrent => ?_) less) allocated
      rw [isCurrent] at retired
      exact retired current
    refine old.trans (.step next ?_)
    rw [index]
    exact .refl

theorem linked_move (linked : Linked h) (size : h'.size = h.size + 1)
    (allocated : a < h.size) (same : ∀ x, x ≠ a → x < h.size → h'.table x = h.table x)
    (next : (h'.table a).nextTable = some h.size) (last : (h'.table h.size).nextTable = none) :
    Linked h' := by
  intro x less y step
  rw [size] at less ⊢
  rcases Nat.lt_succ_iff_lt_or_eq.mp less with below | rfl
  · by_cases isCurrent : x = a
    · subst isCurrent
      rw [next, Option.some.injEq] at step
      omega
    · rw [same x isCurrent below] at step
      have := linked x below y step
      omega
  · rw [last] at step
    cases step

theorem linked_write (linked : Linked h) (current : t.nextTable = none) : Linked (h.write a t) := by
  intro x less y step
  by_cases isCurrent : x = a
  · subst isCurrent
    simp only [TableHeap.write, Function.update_self, current] at step
    cases step
  · simp only [TableHeap.write, Function.update_of_ne isCurrent] at step
    exact linked x less y step

theorem same_write (current : (h.table a).nextTable = none) :
    ∀ x < h.size, (h.table x).nextTable ≠ none → (h.write a t).table x = h.table x := by
  intro x _ retired
  have apart : x ≠ a := fun isCurrent => retired (isCurrent ▸ current)
  simp only [TableHeap.write, Function.update_of_ne apart]

/-- `GrowCapacity` and `Shrink` keep the place of an iterator. -/
theorem Stands.moved {rt : HashRuntime α} (linked : Linked h) (allocated : a < h.size)
    (enc : Encodes rt (h.table a) (slotsOf dated)) (stands : Stands h a dated it position)
    (moved : Moved h a (slotsOf dated) h' a' slots') (enc' : Encodes rt (h'.table a') slots') :
    ∃ dated', slots' = slotsOf dated' ∧ livesOf dated' = livesOf dated ∧
      Stands h' a' dated' it position ∧ Linked h' := by
  cases moved with
  | stayed => exact ⟨dated, rfl, rfl, stands, linked⟩
  | rehashed size same retired =>
    refine ⟨compactDated dated, (slotsOf_compactDated dated).symm, livesOf_compactDated dated, ?_, ?_⟩
    · refine stands.move linked (by omega) enc.current same retired.nextTable fun j p cut => ?_
      refine ⟨_, ?_, cut.compact⟩
      rw [retired.deletedAt j (by simpa [slotsOf] using cut.inside)]
      exact compact_index cut.inside
    · exact linked_move linked size allocated same retired.nextTable enc'.current

end Stands

/-! ## Simulation -/

/-- The map holds the entries alive, and its iterator stands at the position of the iteration. -/
structure Iterating (rt : HashRuntime α) (kind : IterationKind)
    (a : Iteration (JSTaggedValue α) (JSTaggedValue α)) (s : MapState α) : Prop where
  ordered : a.Ordered rt.sameValueZero
  allocated : s.map.address < s.map.heap.size
  linked : Linked s.map.heap
  kind : s.iterator.iterationKind = kind
  dated : ∃ dated, Encodes rt s.map.table (slotsOf dated) ∧ livesOf dated = a.lives ∧
    Stands s.map.heap s.map.address dated s.iterator a.position

section Steps

variable {rt : HashRuntime α} {kind : IterationKind}
  {a : Iteration (JSTaggedValue α) (JSTaggedValue α)} {s : MapState α}

/-- The entries beside that of a key have other keys. -/
theorem others_of_ordered {as bs : List (Live (JSTaggedValue α) (JSTaggedValue α))}
    {l : Live (JSTaggedValue α) (JSTaggedValue α)} (ordered : a.Ordered rt.sameValueZero)
    (lives : a.lives = as ++ l :: bs) (same : rt.sameValueZero key l.key = true) :
    (∀ m ∈ as, rt.sameValueZero key m.key = false) ∧
      ∀ m ∈ bs, rt.sameValueZero key m.key = false := by
  have distinct : DistinctKeys rt (a.lives.map fun l => (l.key, l.value)) :=
    List.pairwise_map.mpr ordered.keys
  rw [lives, List.map_append, List.map_cons] at distinct
  obtain ⟨before, after⟩ := others_of_distinct distinct same
  exact ⟨fun m mem => before _ (List.mem_map_of_mem mem), fun m mem => after _ (List.mem_map_of_mem mem)⟩

theorem fresh_of_dated {dated : List (Dated α)} (lives : livesOf dated = a.lives)
    (fresh : ∀ p ∈ (slotsOf dated).reduceOption, rt.sameValueZero key p.1 = false) :
    ∀ l ∈ a.lives, rt.sameValueZero key l.key = false := by
  intro l mem
  rw [reduceOption_slotsOf, lives] at fresh
  exact fresh _ (List.mem_map_of_mem mem)

/-- The current table is rewritten. -/
theorem Iterating.write {a' : Iteration (JSTaggedValue α) (JSTaggedValue α)} {dated dated' : List (Dated α)}
    (sim : Iterating rt kind a s) (ordered : a'.Ordered rt.sameValueZero)
    (current : s.map.table.nextTable = none) (enc : Encodes rt t (slotsOf dated'))
    (stands : Stands s.map.heap s.map.address dated s.iterator a.position) (lives : livesOf dated' = a'.lives)
    (position : a'.position = a.position) (cut : ∀ j p, a.position = some p → Cut dated j p → Cut dated' j p) :
    Iterating rt kind a' ⟨⟨s.map.heap.write s.map.address t, s.map.address⟩, s.iterator⟩ := by
  refine ⟨ordered, sim.allocated, linked_write sim.linked enc.current, sim.kind, dated', ?_, lives, ?_⟩
  · simpa [HashState.table, TableHeap.write] using enc
  · rw [position]
    exact stands.stay sim.linked rfl (same_write current) cut

theorem iterating_insert {value : JSTaggedValue α} (sim : Iterating rt kind a s) (isKey : key ≠ .hole) :
    ∃ map, HashOp.step rt s.map (.insert key value) = some map ∧
      Iterating rt kind (a.step rt.sameValueZero (.set key value)) ⟨map, s.iterator⟩ := by
  obtain ⟨dated, enc, lives, stands⟩ := sim.dated
  have ordered := sim.ordered.step rt.symm (.set key value)
  rcases insert_spec enc sim.allocated isKey (by simp) with ⟨e, k, x, t', here, same, run, enc'⟩ |
    ⟨fresh, h', a', slots', t', moved, enc1, run, enc'⟩
  · obtain ⟨as, birth, bs, rfl, -, set⟩ := split_dated here
    refine ⟨_, by rw [HashOp.step, run]; rfl, ?_⟩
    rw [set] at enc'
    refine sim.write ordered enc.current enc' stands ?_ rfl fun j p _ cut => cut.replace fun _ => rfl
    have split : a.lives = livesOf as ++ ⟨birth, k, x⟩ :: livesOf bs := by
      rw [← lives, livesOf_append]
      rfl
    obtain ⟨before, after⟩ := others_of_ordered sim.ordered split same
    simp only [Iteration.step]
    rw [split, upsert_present (b := ⟨birth, k, x⟩) same before after, livesOf_append]
    rfl
  · refine ⟨_, by rw [HashOp.step, run]; rfl, ?_⟩
    obtain ⟨dated1, rfl, lives1, stands1, linked1⟩ := stands.moved sim.linked sim.allocated enc moved enc1
    have sim1 : Iterating rt kind a ⟨⟨h', a'⟩, s.iterator⟩ :=
      ⟨sim.ordered, moved.allocated sim.allocated, linked1, sim.kind, dated1, enc1,
        lives1.trans lives, stands1⟩
    have fresh' := fresh_of_dated lives fresh
    have slots : slotsOf dated1 ++ [some (key, value)] =
        slotsOf (dated1 ++ [(a.time, some (key, value))]) := by
      simp [slotsOf]
    rw [slots] at enc'
    refine sim1.write ordered enc1.current enc' stands1 ?_ rfl fun j p position cut =>
      cut.append (sim.ordered.position p position)
    simp only [Iteration.step]
    rw [upsert_absent fresh', livesOf_append, lives1, lives]
    rfl

theorem iterating_delete (sim : Iterating rt kind a s) (key : JSTaggedValue α) :
    ∃ h found, s.map.heap.delete rt s.map.address key = some (h, found) ∧
      Iterating rt kind (a.step rt.sameValueZero (.erase key)) ⟨⟨h, s.map.address⟩, s.iterator⟩ := by
  obtain ⟨dated, enc, lives, stands⟩ := sim.dated
  have ordered := sim.ordered.step rt.symm (.erase key)
  rcases delete_spec enc key with ⟨e, k, x, t', here, same, run, enc'⟩ | ⟨fresh, run⟩
  · obtain ⟨as, birth, bs, rfl, -, set⟩ := split_dated here
    refine ⟨_, _, run, ?_⟩
    rw [set] at enc'
    refine sim.write ordered enc.current enc' stands ?_ rfl fun j p _ cut =>
      cut.replace fun some => by cases some
    have split : a.lives = livesOf as ++ ⟨birth, k, x⟩ :: livesOf bs := by
      rw [← lives, livesOf_append]
      rfl
    obtain ⟨before, after⟩ := others_of_ordered sim.ordered split same
    simp only [Iteration.step]
    rw [split, discard_present (b := ⟨birth, k, x⟩) same before after, livesOf_append]
    rfl
  · refine ⟨_, _, run, ordered, sim.allocated, sim.linked, sim.kind, dated, enc, ?_, stands⟩
    rw [Iteration.step, discard_absent (fresh_of_dated lives fresh)]
    exact lives

theorem iterating_shrink (sim : Iterating rt kind a s) (additionalCapacity : Nat) :
    Iterating rt kind a ⟨⟨(s.map.heap.shrink rt s.map.address additionalCapacity).1,
      (s.map.heap.shrink rt s.map.address additionalCapacity).2⟩, s.iterator⟩ := by
  obtain ⟨dated, enc, lives, stands⟩ := sim.dated
  obtain ⟨slots', moved, enc'⟩ := shrink_spec enc sim.allocated additionalCapacity
  obtain ⟨dated', rfl, lives', stands', linked'⟩ := stands.moved sim.linked sim.allocated enc moved enc'
  exact ⟨sim.ordered, moved.allocated sim.allocated, linked', sim.kind, dated', enc',
    lives'.trans lives, stands'⟩

theorem iterating_clear (sim : Iterating rt kind a s) :
    Iterating rt kind (a.step rt.sameValueZero .clear)
      ⟨⟨(s.map.heap.clear s.map.address).1, (s.map.heap.clear s.map.address).2⟩, s.iterator⟩ := by
  obtain ⟨dated, enc, lives, stands⟩ := sim.dated
  obtain ⟨address, size, same, enc', next, deletedAt⟩ := clear_spec enc sim.allocated
  rw [address]
  refine ⟨sim.ordered.step rt.symm .clear, Nat.lt_of_lt_of_eq (Nat.lt_succ_self _) size.symm, ?_,
    sim.kind, [], enc', rfl, ?_⟩
  · exact linked_move sim.linked size sim.allocated same next enc'.current
  · have larger : s.map.heap.size ≤ (s.map.heap.clear s.map.address).1.size := by omega
    refine stands.move sim.linked larger enc.current same next fun j p cut => ⟨0, ?_, ?_⟩
    · rw [deletedAt, Int.sub_self]
      rfl
    · exact ⟨Nat.le_refl 0, by simp, by simp⟩

/-- A change of the map. -/
theorem iterating_change (sim : Iterating rt kind a s) (op : HashOp α) (valid : op.Valid .map) :
    ∃ map, op.step rt s.map = some map ∧
      Iterating rt kind (a.step rt.sameValueZero op.event) ⟨map, s.iterator⟩ := by
  cases op with
  | insert key value => exact iterating_insert sim valid.1
  | delete key =>
    obtain ⟨h, found, run, sim'⟩ := iterating_delete sim key
    exact ⟨⟨h, s.map.address⟩, by rw [HashOp.step, run]; rfl, sim'⟩
  | remove key =>
    obtain ⟨h, found, run, sim'⟩ := iterating_delete sim key
    rw [HashOp.step, remove_eq_delete, run]
    cases found with
    | false => exact ⟨⟨h, s.map.address⟩, rfl, sim'⟩
    | true => exact ⟨_, rfl, iterating_shrink sim' 0⟩
  | shrink additionalCapacity =>
    obtain ⟨ordered, allocated, linked, hkind, dated⟩ := iterating_shrink sim additionalCapacity
    exact ⟨_, rfl, ordered.step rt.symm .keep, allocated, linked, hkind, dated⟩
  | clear => exact ⟨_, rfl, iterating_clear sim⟩

/-! ### `NextInternal` -/

/-- The search from the `j`-th slot ends at the first one that is not removed. -/
theorem nextStep_spec {dated : List (Dated α)} (holds : Holds t.view (slotsOf dated)) {j : Nat}
    (inside : j ≤ dated.length) :
    ∃ found, iter (JSMapIterator.nextStep t dated.length) (dated.length + 1) (j : Int) =
        some found ∧
      ((found = none ∧ ∀ i x, j ≤ i → dated[i]? = some x → x.2.isSome = false) ∨
        ∃ (e birth : Nat) (k x : JSTaggedValue α), found = some (e : Int) ∧ j ≤ e ∧ dated[e]? = some (birth, some (k, x)) ∧
          ∀ i x, j ≤ i → i < e → dated[i]? = some x → x.2.isSome = false) := by
  refine iter_spec (I := fun n (index : Int) => ∃ i : Nat, index = i ∧ j ≤ i ∧ n + i = dated.length ∧
      ∀ i' x, j ≤ i' → i' < i → dated[i']? = some x → x.2.isSome = false)
    (fun n index inv => ?_) _ (dated.length - j) _
    ⟨j, rfl, Nat.le_refl j, by omega, fun i' x low high => by omega⟩ (by omega)
  obtain ⟨i, rfl, low, bound, dead⟩ := inv
  rcases Nat.lt_or_ge i dated.length with below | above
  · have slot : dated[i]? = some (dated.get ⟨i, below⟩) := List.getElem?_eq_getElem below
    rcases content : dated.get ⟨i, below⟩ with ⟨birth, _ | ⟨k, x⟩⟩
    · rw [content] at slot
      have hole : t.getKey i = .hole := holds.dead (by simp [slotsOf, slot])
      refine .inl ⟨((i + 1 : Nat) : Int), n - 1, ?_, by omega, i + 1, rfl, by omega, by omega, ?_⟩
      · rw [JSMapIterator.nextStep, if_pos (by omega), hole]
        rfl
      · intro i' x low' high here
        rcases Nat.lt_succ_iff_lt_or_eq.mp high with high | rfl
        · exact dead i' x low' high here
        · rw [slot, Option.some.injEq] at here
          rw [← here]
          rfl
    · rw [content] at slot
      obtain ⟨key, -, isKey⟩ := holds.live (e := i) (k := k) (x := x) (by simp [slotsOf, slot])
      have key : t.getKey i = k := key
      refine .inr ⟨some (i : Int), ?_, .inr ⟨i, birth, k, x, rfl, low, slot, dead⟩⟩
      rw [JSMapIterator.nextStep, if_pos (by omega), key, JSTaggedValue.isHole_eq_false.mpr isKey]
      rfl
  · refine .inr ⟨none, ?_, .inl ⟨rfl, fun i' x low' here => ?_⟩⟩
    · rw [JSMapIterator.nextStep, if_neg (by omega)]
    · have := (List.getElem?_eq_some_iff.mp here).1
      exact dead i' x low' (by omega) here

/-- An iterator that has no place any more is done. -/
theorem nextInternal_done (sim : Iterating rt kind a s) (done : a.position = none) :
    s.iterator.nextInternal s.map.heap = some (resultOf kind a.nextLive, s.iterator) := by
  obtain ⟨dated, -, -, stands⟩ := sim.dated
  rw [done] at stands
  have undefined : s.iterator.iteratedMap = none := stands
  have none : a.nextLive = none := by rw [nextLive, done]; rfl
  simp [JSMapIterator.nextInternal, JSMapIterator.update, undefined, none, resultOf]

theorem mem_livesOf {dated : List (Dated α)} {i birth : Nat} {k : JSTaggedValue α}
    (here : dated[i]? = some (birth, some (k, x))) : ⟨birth, k, x⟩ ∈ livesOf dated :=
  List.mem_filterMap.mpr ⟨_, List.mem_of_getElem? here, rfl⟩

theorem slot_of_mem_livesOf {dated : List (Dated α)} {l : Live (JSTaggedValue α) (JSTaggedValue α)}
    (mem : l ∈ livesOf dated) : ∃ i : Nat, dated[i]? = some (l.birth, some (l.key, l.value)) := by
  obtain ⟨⟨birth, slot⟩, there, isLive⟩ := List.mem_filterMap.mp mem
  obtain ⟨i, here⟩ := List.mem_iff_getElem?.mp there
  obtain ⟨⟨k, x⟩, rfl, rfl⟩ := Option.map_eq_some_iff.mp isLive
  exact ⟨i, here⟩

/-- No entry is left behind the place of the iterator. -/
theorem nextLive_none_of_dead {dated : List (Dated α)} {j p : Nat} (lives : livesOf dated = a.lives)
    (position : a.position = some p) (cut : Cut dated j p)
    (dead : ∀ i x, j ≤ i → dated[i]? = some x → x.2.isSome = false) : a.nextLive = none := by
  rw [nextLive, position, Option.bind_some, List.find?_eq_none]
  intro l mem
  rw [← lives] at mem
  obtain ⟨i, here⟩ := slot_of_mem_livesOf mem
  rcases Nat.lt_or_ge i j with below | above
  · have := cut.before i _ below here rfl
    simp only [decide_eq_true_eq]
    omega
  · have := dead i _ above here
    cases this

/-- The first entry behind the place of the iterator is the one to yield. -/
theorem nextLive_of_first {dated : List (Dated α)} {j p birth : Nat} {k : JSTaggedValue α}
    (lives : livesOf dated = a.lives) (position : a.position = some p) (cut : Cut dated j p) (behind : j ≤ e)
    (here : dated[e]? = some (birth, some (k, x)))
    (dead : ∀ i x, j ≤ i → i < e → dated[i]? = some x → x.2.isSome = false) :
    a.nextLive = some ⟨birth, k, x⟩ := by
  obtain ⟨below, same⟩ := List.getElem?_eq_some_iff.mp here
  have parts : dated = dated.take e ++ (birth, some (k, x)) :: dated.drop (e + 1) := by
    rw [← same, List.getElem_cons_drop, List.take_append_drop]
  have late : p ≤ birth := cut.after e _ behind here rfl
  have first : (livesOf (dated.take e)).find? (fun l => decide (p ≤ l.birth)) = none := by
    rw [List.find?_eq_none]
    intro l mem
    obtain ⟨i, there⟩ := slot_of_mem_livesOf mem
    rw [List.getElem?_take] at there
    split_ifs at there with before
    rcases Nat.lt_or_ge i j with less | more
    · have := cut.before i _ less there rfl
      simp only [decide_eq_true_eq]
      omega
    · have := dead i _ more before there
      cases this
  rw [nextLive, position, Option.bind_some, ← lives, parts, livesOf_append, List.find?_append, first]
  have head : livesOf ((birth, some (k, x)) :: dated.drop (e + 1)) =
      ⟨birth, k, x⟩ :: livesOf (dated.drop (e + 1)) := rfl
  rw [head, Option.none_or, List.find?_cons_of_pos]
  exact decide_eq_true late

/-- The place behind the entry that was yielded. -/
theorem cut_next {dated : List (Dated α)} {j p birth : Nat} {k : JSTaggedValue α}
    (ordered : a.Ordered rt.sameValueZero) (lives : livesOf dated = a.lives) (cut : Cut dated j p)
    (behind : j ≤ e) (here : dated[e]? = some (birth, some (k, x)))
    (dead : ∀ i x, j ≤ i → i < e → dated[i]? = some x → x.2.isSome = false) :
    Cut dated (e + 1) (birth + 1) := by
  obtain ⟨below, same⟩ := List.getElem?_eq_some_iff.mp here
  have late : p ≤ birth := cut.after e _ behind here rfl
  refine ⟨below, fun i y less there isLive => ?_, fun i y more there isLive => ?_⟩
  · rcases Nat.lt_succ_iff_lt_or_eq.mp less with less | rfl
    · rcases Nat.lt_or_ge i j with before | after
      · have := cut.before i y before there isLive
        omega
      · rw [dead i y after less there] at isLive
        cases isLive
    · rw [here, Option.some.injEq] at there
      rw [← there]
      exact Nat.lt_succ_self birth
  · have parts : dated = (dated.take e ++ [(birth, some (k, x))]) ++ dated.drop (e + 1) := by
      rw [← same, List.append_assoc, List.singleton_append, List.getElem_cons_drop,
        List.take_append_drop]
    obtain ⟨date, slot⟩ := y
    obtain ⟨q, rfl⟩ := Option.isSome_iff_exists.mp isLive
    have births := ordered.births
    rw [← lives, parts, livesOf_append] at births
    have later : (⟨date, q.1, q.2⟩ : Live _ _) ∈ livesOf (dated.drop (e + 1)) := by
      refine mem_livesOf (i := i - (e + 1)) ?_
      rw [List.getElem?_drop, Nat.add_sub_cancel' more]
      exact there
    have mine : (⟨birth, k, x⟩ : Live _ _) ∈ livesOf (dated.take e ++ [(birth, some (k, x))]) := by
      rw [livesOf_append]
      exact List.mem_append_right _ List.mem_cons_self
    exact (List.pairwise_append.mp births).2.2 _ mine _ later

theorem iterating_next (sim : Iterating rt kind a s) :
    ∃ it, s.iterator.nextInternal s.map.heap = some (resultOf kind a.nextLive, it) ∧
      Iterating rt kind (a.step rt.sameValueZero .next) ⟨s.map, it⟩ := by
  have ordered := sim.ordered.step rt.symm .next
  cases position : a.position with
  | none =>
    refine ⟨s.iterator, nextInternal_done sim position, ordered, sim.allocated, sim.linked, sim.kind, ?_⟩
    obtain ⟨dated, enc, lives, stands⟩ := sim.dated
    rw [position] at stands
    have none : a.nextLive = none := by rw [nextLive, position]; rfl
    refine ⟨dated, enc, lives, ?_⟩
    rw [Iteration.step, none]
    exact stands
  | some p =>
    obtain ⟨dated, enc, lives, stands⟩ := sim.dated
    rw [position] at stands
    obtain ⟨b, j, here, allocated, walk, cut⟩ := stands
    have updated : iter (JSMapIterator.updateStep s.map.heap) (s.map.heap.size + 1)
        (b, s.iterator.nextIndex) = some (s.map.address, (j : Int)) :=
      walk.update sim.linked enc.current allocated (by omega)
    have total : s.map.table.numberOfElements + s.map.table.numberOfDeletedElements = dated.length := by
      rw [enc.total, slotsOf, List.length_map]
    obtain ⟨found, search, answer⟩ := nextStep_spec enc.filled.holds cut.inside
    have table : s.map.heap.table s.map.address = s.map.table := rfl
    rcases answer with ⟨rfl, dead⟩ | ⟨e, birth, k, x, rfl, behind, slot, dead⟩
    · have last := nextLive_none_of_dead lives position cut dead
      refine ⟨{ s.iterator with iteratedMap := none, nextIndex := j }, ?_, ordered, sim.allocated,
        sim.linked, sim.kind, dated, enc, lives, ?_⟩
      · simp [JSMapIterator.nextInternal, JSMapIterator.update, here, updated, table, total, search,
          last, resultOf]
      · rw [Iteration.step, last]
        exact rfl
    · have first := nextLive_of_first lives position cut behind slot dead
      obtain ⟨key, value, -⟩ := enc.filled.holds.live (e := e) (k := k) (x := x) (by simp [slotsOf, slot])
      have key : s.map.table.getKey e = k := key
      have value : s.map.table.getValue e = x := value
      have kept : s.iterator.iterationKind = kind := sim.kind
      refine ⟨{ s.iterator with iteratedMap := some s.map.address, nextIndex := ((e + 1 : Nat) : Int) }, ?_, ordered,
        sim.allocated, sim.linked, sim.kind, dated, enc, lives, ?_⟩
      · simp [JSMapIterator.nextInternal, JSMapIterator.update, here, updated, table, total, search,
          first, resultOf, key, value, kept]
      · rw [Iteration.step, first]
        exact ⟨s.map.address, e + 1, rfl, sim.allocated, .refl,
          cut_next sim.ordered lives cut behind slot dead⟩

end Steps

/-! ## Runs -/

/-- The iteration that begins after the given operations on a new map. -/
def iterationFrom (rt : HashRuntime α) (before : List (HashOp α)) :
    Iteration (JSTaggedValue α) (JSTaggedValue α) :=
  ((before.map HashOp.event).foldl (Iteration.step rt.sameValueZero) Iteration.empty).begin

section Runs

variable {rt : HashRuntime α} {kind : IterationKind}

/-- A new iterator stands before all entries. -/
theorem iterating_begin {map : HashState .map α} {it : JSMapIterator}
    {a : Iteration (JSTaggedValue α) (JSTaggedValue α)} (sim : Iterating rt kind a ⟨map, it⟩) :
    Iterating rt kind a.begin ⟨map, .newJSMapIterator map.address kind⟩ := by
  obtain ⟨dated, enc, lives, -⟩ := sim.dated
  refine ⟨⟨sim.ordered.births, sim.ordered.keys, sim.ordered.past, ?_⟩, sim.allocated, sim.linked, rfl,
    dated, enc, lives, map.address, 0, rfl, sim.allocated, .refl, ?_⟩
  · intro p position
    rw [← Option.some.inj position]
    exact Nat.zero_le _
  · exact ⟨Nat.zero_le _, fun i x less => absurd less (Nat.not_lt_zero i), fun i x _ _ _ => Nat.zero_le _⟩

theorem iterating_create {capacity : Nat} (room : 0 < capacity) :
    Iterating rt kind Iteration.empty ⟨.create .map capacity, ⟨none, 0, kind⟩⟩ := by
  have ordered : (Iteration.empty : Iteration (JSTaggedValue α) (JSTaggedValue α)).Ordered
      rt.sameValueZero := by
    refine ⟨List.Pairwise.nil, List.Pairwise.nil, fun l mem => ?_, fun p position => ?_⟩
    · cases mem
    · cases position
  have linked : Linked (HashState.create (α := α) .map capacity).heap := fun a _ b next => by cases next
  exact ⟨ordered, Nat.zero_lt_one, linked, rfl, [], create_encodes room, rfl, rfl⟩

/-- The map is changed before the iterator is made. -/
theorem iterating_before (rt : HashRuntime α) (kind : IterationKind) {capacity : Nat} (room : 0 < capacity) (before : List (HashOp α))
    (valid : ∀ op ∈ before, op.Valid .map) :
    ∃ map, run (HashOp.step rt) (HashState.create .map capacity) before = some map ∧
      Iterating rt kind (iterationFrom rt before) ⟨map, .newJSMapIterator map.address kind⟩ := by
  obtain ⟨map, reached, sim⟩ := run_refines
    (R := fun map a => Iterating rt kind a ⟨map, ⟨none, 0, kind⟩⟩)
    (f := fun a (op : HashOp α) => a.step rt.sameValueZero op.event)
    (fun map a op sim valid => iterating_change sim op valid) before _ Iteration.empty
    (iterating_create room) (allowed_of_forall valid)
  refine ⟨map, reached, ?_⟩
  rw [iterationFrom, List.foldl_map]
  exact iterating_begin sim

theorem Iterating.refines {a : Iteration (JSTaggedValue α) (JSTaggedValue α)} {s : MapState α}
    (sim : Iterating rt kind a s) :
    RefinesOrderedMap rt s.map (a.lives.map fun l => (l.key, l.value)) := by
  obtain ⟨dated, enc, lives, -⟩ := sim.dated
  rw [← lives, ← reduceOption_slotsOf]
  exact Represents.refines ⟨sim.allocated, _, enc, rfl⟩

/-- One operation on the map or its iterator, after those of `past`. -/
theorem iterating_step (start : Iteration (JSTaggedValue α) (JSTaggedValue α))
    (past : List (IterOp α)) (s : MapState α) (op : IterOp α)
    (sim : Iterating rt kind ((past.map IterOp.event).foldl (Iteration.step rt.sameValueZero) start) s)
    (valid : op.Valid) :
    ∃ s' r, op.step rt s = some (s', r) ∧
      Iterating rt kind
        (((past ++ [op]).map IterOp.event).foldl (Iteration.step rt.sameValueZero) start) s' ∧
      (op = .next → r = some (resultOf kind
        ((past.map IterOp.event).foldl (Iteration.step rt.sameValueZero) start).nextLive)) := by
  rw [List.map_append, List.foldl_append]
  cases op with
  | change op =>
    obtain ⟨map', run', sim'⟩ := iterating_change sim op valid
    exact ⟨⟨map', s.iterator⟩, none, by rw [IterOp.step, run']; rfl, sim', fun no => by cases no⟩
  | next =>
    obtain ⟨it, run', sim'⟩ := iterating_next sim
    exact ⟨⟨s.map, it⟩, some _, by rw [IterOp.step, run']; rfl, sim', fun _ => rfl⟩

end Runs

/-- For every order of changes of the map and `next` calls of an iterator, each call hands out what the
    iteration over the ordered map yields, and the map has the entries of that iteration. -/
theorem mapIterator_iterates_of_run (rt : HashRuntime α) (kind : IterationKind) {capacity : Nat}
    (room : 0 < capacity) (before : List (HashOp α)) (ops : List (IterOp α))
    (validBefore : ∀ op ∈ before, op.Valid .map) (valid : ∀ op ∈ ops, op.Valid) :
    ∃ map s results, run (HashOp.step rt) (HashState.create .map capacity) before = some map ∧
      trace (IterOp.step rt) ⟨map, .newJSMapIterator map.address kind⟩ ops = some (s, results) ∧
      results.length = ops.length ∧
      (∀ i, ops[i]? = some .next → results[i]? = some (some (resultOf kind
        (yieldAt rt.sameValueZero (iterationFrom rt before) (ops.map IterOp.event) i)))) ∧
      RefinesOrderedMap rt s.map ((stateAt rt.sameValueZero (iterationFrom rt before)
        (ops.map IterOp.event) ops.length).lives.map fun l => (l.key, l.value)) ∧
      IteratesInOrder rt.sameValueZero (iterationFrom rt before) (ops.map IterOp.event) := by
  obtain ⟨map, reached, sim⟩ := iterating_before rt kind room before validBefore
  obtain ⟨s, results, answered, sim', length, answers⟩ :=
    trace_spec (iterating_step (iterationFrom rt before)) ops [] _ sim valid
  refine ⟨map, s, results, reached, answered, length, fun i here => ?_, ?_, ?_⟩
  · obtain ⟨r, there, answer⟩ := answers i .next here
    have event : (ops.map IterOp.event)[i]? = some .next := by
      rw [List.getElem?_map, here]
      rfl
    rw [there, yieldAt_next event, stateAt, answer rfl, List.nil_append, List.map_take]
  · rw [stateAt, ← List.map_take, List.take_length]
    exact sim'.refines
  · exact iteratesInOrder rt.symm sim.ordered rfl _

/-- Key 1 is removed and set again after it was yielded, and comes again at the end. -/
theorem mapIterator_iterates_of_run_again :
    ∃ map s results, run (HashOp.step (oneBucket Unit)) (HashState.create .map 4)
        [.insert (.int 1) (.int 5), .insert (.int 2) (.int 6)] = some map ∧
      trace (IterOp.step (oneBucket Unit)) ⟨map, .newJSMapIterator map.address .key⟩
        [.next, .change (.delete (.int 1)), .change (.insert (.int 1) (.int 7)), .next, .next, .next] =
          some (s, results) ∧
      results[0]? = some (some ⟨.tagged (.int 1), false⟩) ∧
      results[3]? = some (some ⟨.tagged (.int 2), false⟩) ∧
      results[4]? = some (some ⟨.tagged (.int 1), false⟩) ∧
      results[5]? = some (some ⟨.tagged .undefined, true⟩) := by
  obtain ⟨map, s, results, reached, answered, -, answers, -, -⟩ :=
    mapIterator_iterates_of_run (oneBucket Unit) .key (by decide : 0 < 4)
      [.insert (.int 1) (.int 5), .insert (.int 2) (.int 6)]
      [.next, .change (.delete (.int 1)), .change (.insert (.int 1) (.int 7)), .next, .next, .next]
      (by decide) (by simp [IterOp.Valid, HashOp.Valid])
  exact ⟨map, s, results, reached, answered, answers 0 rfl, answers 3 rfl, answers 4 rfl, answers 5 rfl⟩

end LinkedHash

end ArkRuntime
