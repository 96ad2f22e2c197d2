import ArkRuntime.LinkedHash.Repr
import Mathlib.Data.Nat.Find

/-!
# `FindElement`

The walk along the chain of a bucket passes all its entries, from the last one to the first, so it
finds the key if an entry has it.
-/

namespace ArkRuntime

namespace LinkedHash

variable {d : HashDerived} {α : Type} {rt : HashRuntime α} {t : LinkedHashTable d α}
  {slots : List (Slot α)}

open LinkedHashTable

theorem mem_of_slot {e : Nat} {p : JSTaggedValue α × JSTaggedValue α}
    (here : slots[e]? = some (some p)) : p ∈ slots.reduceOption :=
  List.reduceOption_mem_iff.mpr (List.mem_of_getElem? here)

theorem slot_of_mem {p : JSTaggedValue α × JSTaggedValue α} (live : p ∈ slots.reduceOption) :
    ∃ e : Nat, slots[e]? = some (some p) :=
  List.mem_iff_getElem?.mp (List.reduceOption_mem_iff.mp live)

theorem lt_of_slot {e : Nat} {s : Slot α} (here : slots[e]? = some s) : e < slots.length := by
  obtain ⟨below, -⟩ := List.getElem?_eq_some_iff.mp here
  exact below

/-- The bucket of a table, which is inside. -/
theorem getElement_bucket (room : 0 < t.capacity) (hash : UInt32) :
    t.getElement (bucketToIndex (t.hashToBucket hash)) =
      t.view.bucket (bucketOf t.capacity hash) := by
  simp only [view]
  rw [if_pos (bucketOf_lt room hash)]
  rfl

/-- The round at the last entry below `n` of the bucket either ends the search or goes on at the
    last entry below that one. -/
theorem findStep_chain (rt : HashRuntime α) {home : Nat → Nat} (holds : Holds t.view slots)
    (chained : Chained t.view home slots.length) (key : JSTaggedValue α) {b n e : Nat}
    (low : n ≤ slots.length) (last : lastBelow (fun f => home f = b) n = some e) :
    (∃ k x, slots[e]? = some (some (k, x)) ∧ rt.sameValueZero key k = true ∧
      t.findStep rt key (.int e) = .inr e) ∨
    ((∀ k x, slots[e]? = some (some (k, x)) → rt.sameValueZero key k = false) ∧
      t.findStep rt key (.int e) = .inl (link (lastBelow (fun f => home f = b) e))) := by
  obtain ⟨below, here, -⟩ := lastBelow_eq_some.mp last
  have next : t.getNextEntry e = link (lastBelow (fun f => home f = b) e) := by
    have := chained.next e (by omega)
    rwa [here] at this
  have slot : slots[e]? = some (slots.get ⟨e, by omega⟩) := List.getElem?_eq_getElem (by omega)
  rcases content : slots.get ⟨e, by omega⟩ with _ | ⟨k, x⟩
  · rw [content] at slot
    have dead : t.getKey e = .hole := holds.dead slot
    refine .inr ⟨fun k x live => ?_, ?_⟩
    · rw [slot] at live
      simp at live
    · simp only [findStep, JSTaggedValue.isHole_int, JSTaggedValue.getInt_int, dead, next,
        JSTaggedValue.isHole_hole, if_true, if_false, Bool.false_eq_true]
  · rw [content] at slot
    obtain ⟨same, -, isKey⟩ := holds.live slot
    have live : t.getKey e = k := same
    have noHole : k.isHole = false := JSTaggedValue.isHole_eq_false.mpr isKey
    cases found : rt.sameValueZero key k with
    | true =>
      refine .inl ⟨k, x, slot, found, ?_⟩
      simp only [findStep, JSTaggedValue.isHole_int, JSTaggedValue.getInt_int, live, noHole, found,
        if_true, if_false, Bool.false_eq_true]
    | false =>
      refine .inr ⟨fun k' x' live' => ?_, ?_⟩
      · rw [slot] at live'
        simp only [Option.some.injEq, Prod.mk.injEq] at live'
        rw [← live'.1]
        exact found
      · simp only [findStep, JSTaggedValue.isHole_int, JSTaggedValue.getInt_int, live, noHole, found,
          next, if_false, Bool.false_eq_true]

/-- What `FindElement` answers. -/
def Found (rt : HashRuntime α) (slots : List (Slot α)) (key : JSTaggedValue α) (entry : Int) :
    Prop :=
  (entry = -1 ∧ ∀ p ∈ slots.reduceOption, rt.sameValueZero key p.1 = false) ∨
    ∃ (e : Nat) (k x : JSTaggedValue α), entry = e ∧ slots[e]? = some (some (k, x)) ∧
      rt.sameValueZero key k = true

theorem findElement_spec (filled : Filled rt t.view slots) (key : JSTaggedValue α) :
    ∃ entry, t.findElement rt key = some entry ∧ Found rt slots key entry := by
  unfold findElement
  cases isHole : key.isHole with
  | true =>
    refine ⟨-1, rfl, .inl ⟨rfl, fun p live => ?_⟩⟩
    obtain ⟨e, here⟩ := slot_of_mem live
    have isKey := (filled.holds.live here).2.2
    rw [JSTaggedValue.isHole_eq_true.mp isHole]
    by_contra same
    exact isKey (rt.hole _ (by simpa using same))
  | false =>
    obtain ⟨home, chained, homes⟩ := filled.chained
    simp only [if_false, Bool.false_eq_true]
    have first := chained.bucket (bucketOf t.capacity (rt.hash key)) (bucketOf_lt filled.room _)
    rw [getElement_bucket filled.room, first]
    -- The entries of the bucket from `n` on do not have the key.
    refine iter_spec (I := fun n s => n ≤ slots.length ∧
        s = link (lastBelow (fun f => home f = bucketOf t.capacity (rt.hash key)) n) ∧
        ∀ e k x, n ≤ e → slots[e]? = some (some (k, x)) → rt.sameValueZero key k = false)
      (fun n s inv => ?_) _ slots.length _ ⟨Nat.le_refl _, rfl, fun e k x above here => ?_⟩ ?_
    · obtain ⟨low, rfl, passed⟩ := inv
      rcases last : lastBelow (fun f => home f = bucketOf t.capacity (rt.hash key)) n with _ | e
      · refine .inr ⟨-1, by simp [findStep], .inl ⟨rfl, fun p live => ?_⟩⟩
        obtain ⟨e, here⟩ := slot_of_mem live
        by_contra same
        have same : rt.sameValueZero key p.1 = true := by simpa using same
        rcases Nat.lt_or_ge e n with below | above
        · apply lastBelow_eq_none.mp last e below
          rw [homes here, rt.hash_eq _ _ same]
          rfl
        · rw [passed e _ _ above here] at same
          cases same
      · obtain ⟨below, -, between⟩ := lastBelow_eq_some.mp last
        rcases findStep_chain rt filled.holds chained key low last with
          ⟨k, x, here, same, leave⟩ | ⟨other, again⟩
        · exact .inr ⟨e, leave, .inr ⟨e, k, x, rfl, here, same⟩⟩
        · refine .inl ⟨_, e, again, below, by omega, rfl, fun f k x above here => ?_⟩
          rcases Nat.lt_or_ge f n with low' | above'
          · by_contra same
            have same : rt.sameValueZero key k = true := by simpa using same
            rcases Nat.lt_or_eq_of_le above with above | rfl
            · apply between f above low'
              rw [homes here, rt.hash_eq _ _ same]
              rfl
            · rw [other k x here] at same
              cases same
          · exact passed f k x above' here
    · have := lt_of_slot here
      omega
    · have := filled.fits
      have : t.view.capacity = t.capacity := rfl
      omega

/-- An entry is in the chain of a bucket. -/
inductive InChain (t : LinkedHashTable d α) (bucket : Nat) : Nat → Prop where
  | first {e : Nat} : t.getElement (bucketToIndex bucket) = .int e → InChain t bucket e
  | next {e f : Nat} : InChain t bucket e → t.getNextEntry e = .int f → InChain t bucket f

theorem inChain_of_home {home : Nat → Nat} {m : Nat} (chained : Chained t.view home m)
    {b e : Nat} (inside : (b : Int) < t.capacity) (below : e < m) (here : home e = b) :
    InChain t b e := by
  have bucket : t.getElement (bucketToIndex b) = link (lastBelow (fun f => home f = b) m) := by
    have := chained.bucket b inside
    simpa only [view, if_pos inside] using this
  -- Induction on the number of entries behind `e`.
  induction gap : m - e using Nat.strongRecOn generalizing e with
  | ind gap ih =>
    by_cases last : ∀ f, e < f → f < m → home f ≠ b
    · apply InChain.first
      rw [bucket, lastBelow_eq_some.mpr ⟨below, here, last⟩]
      rfl
    · have later : ∃ f, e < f ∧ f < m ∧ home f = b := by
        simpa only [not_forall, not_not, exists_prop] using last
      obtain ⟨above, below', here'⟩ := Nat.find_spec later
      refine InChain.next (ih _ (by omega) below' here' rfl) ?_
      have next : t.getNextEntry (Nat.find later) = _ := chained.next _ below'
      rw [next, here', lastBelow_eq_some.mpr ⟨above, here, fun f after before same => ?_⟩]
      · rfl
      · exact Nat.find_min later before ⟨after, by omega, same⟩

theorem inChain_of_slot (filled : Filled rt t.view slots) {e : Nat} {k x : JSTaggedValue α}
    (here : slots[e]? = some (some (k, x))) : InChain t (t.hashToBucket (rt.hash k)) e := by
  obtain ⟨home, chained, homes⟩ := filled.chained
  exact inChain_of_home chained (bucketOf_lt filled.room _) (lt_of_slot here) (homes here)

end LinkedHash

end ArkRuntime
