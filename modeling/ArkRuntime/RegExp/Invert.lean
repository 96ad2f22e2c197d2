import ArkRuntime.RegExp.RangeSet

/-!
# `RangeSet::Invert`

A canonical list is determined by the values it covers. `Invert` gives the canonical list of the values up
to the maximum that a canonical list does not cover, so it undoes itself.
-/

namespace ArkRuntime

namespace RangeSet

variable {a b set : RangeSet} {r q : CharRange} {v m : Nat}

/-! ## Canonical lists of the same values -/

theorem Canonical.first_le (canonical : Canonical (r :: set)) (covers : Covers (r :: set) v) :
    r.first ≤ v := by
  rcases covers_cons.mp covers with here | ⟨q, mem, above, -⟩
  · exact here.1
  · have before : r.second + 1 < q.first := canonical.behind mem
    have := canonical.head
    omega

/-- The value behind the first range is not covered. -/
theorem Canonical.not_covers_next (canonical : Canonical (r :: set)) :
    ¬Covers (r :: set) (r.second + 1) := by
  intro covers
  rcases covers_cons.mp covers with here | ⟨q, mem, above, -⟩
  · omega
  · have before : r.second + 1 < q.first := canonical.behind mem
    omega

theorem Canonical.covers_tail_iff (canonical : Canonical (r :: set)) :
    Covers set v ↔ Covers (r :: set) v ∧ r.second < v := by
  rw [covers_cons]
  constructor
  · rintro ⟨q, mem, above, below⟩
    have before : r.second + 1 < q.first := canonical.behind mem
    exact ⟨.inr ⟨q, mem, above, below⟩, by omega⟩
  · rintro ⟨here | there, above⟩
    · omega
    · exact there

theorem Canonical.second_le (left : Canonical (r :: a)) (right : Canonical (q :: b))
    (same : ∀ v, Covers (r :: a) v ↔ Covers (q :: b) v) (first : r.first = q.first) :
    q.second ≤ r.second := by
  by_contra more
  have proper := left.head
  have covered : Covers (q :: b) (r.second + 1) := covers_cons.mpr (.inl (by omega))
  exact left.not_covers_next ((same _).mpr covered)

/-- Two canonical lists that cover the same values are one. -/
theorem Canonical.eq_of_covers (left : Canonical a) (right : Canonical b)
    (same : ∀ v, Covers a v ↔ Covers b v) : a = b := by
  induction a generalizing b with
  | nil =>
    cases b with
    | nil => rfl
    | cons q b =>
      have covered := (same q.first).mpr (covers_cons.mpr (.inl ⟨Nat.le_refl _, right.head⟩))
      exact absurd covered (by simp [Covers])
  | cons r a ih =>
    cases b with
    | nil =>
      have covered := (same r.first).mp (covers_cons.mpr (.inl ⟨Nat.le_refl _, left.head⟩))
      exact absurd covered (by simp [Covers])
    | cons q b =>
      have first : r.first = q.first := by
        have below := left.first_le ((same q.first).mpr
          (covers_cons.mpr (.inl ⟨Nat.le_refl _, right.head⟩)))
        have above := right.first_le ((same r.first).mp
          (covers_cons.mpr (.inl ⟨Nat.le_refl _, left.head⟩)))
        exact Nat.le_antisymm below above
      have second : r.second = q.second :=
        Nat.le_antisymm (right.second_le left (fun v => (same v).symm) first.symm)
          (left.second_le right same first)
      have head : r = q := by
        cases r
        cases q
        simp_all
      have tail : a = b := by
        refine ih left.tail right.tail fun v => ?_
        rw [left.covers_tail_iff, right.covers_tail_iff, same, second]
      rw [head, tail]

/-! ## The complement -/

/-- `maxValue` of `Invert`: `UINT32_MAX` or `UINT16_MAX`. -/
def maxValue (isUtf16 : Bool) : Nat := if isUtf16 then 2 ^ 32 - 1 else 2 ^ 16 - 1

theorem maxValue_lt (isUtf16 : Bool) : maxValue isUtf16 < 2 ^ 32 := by
  cases isUtf16 <;> decide

/-- No value is above `m`. -/
def Bounded (m : Nat) (set : RangeSet) : Prop := ∀ r ∈ set, r.second ≤ m

/-- The gaps behind the ranges are canonical, begin behind the first range, and cover what is left up to
    the maximum. -/
theorem gaps_spec (small : m < 2 ^ 32) (set : RangeSet) : ∀ r : CharRange, Canonical (r :: set) →
    Bounded m (r :: set) →
      Canonical (gaps m (r :: set)) ∧ Bounded m (gaps m (r :: set)) ∧
        (∀ q ∈ gaps m (r :: set), r.second < q.first) ∧
        ∀ v, Covers (gaps m (r :: set)) v ↔ r.second < v ∧ v ≤ m ∧ ¬Covers (r :: set) v := by
  induction set with
  | nil =>
    intro r canonical bounded
    have below := bounded r List.mem_cons_self
    rw [gaps]
    split_ifs with full
    · refine ⟨canonical.tail, fun q mem => (by cases mem), fun q mem => (by cases mem), fun v => ?_⟩
      simp [Covers]
      omega
    · refine ⟨⟨?_, List.pairwise_singleton _ _⟩, ?_, ?_, fun v => ?_⟩
      · simp [gaps, Proper]
        omega
      · simp [gaps, Bounded]
      · simp [gaps]
      · simp [gaps, Covers]
        omega
  | cons next set ih =>
    intro r canonical bounded
    have below := bounded next (List.mem_cons_of_mem _ List.mem_cons_self)
    have before : r.second + 1 < next.first := canonical.behind List.mem_cons_self
    have proper := canonical.tail.head
    obtain ⟨canonical', bounded', behind, covers⟩ :=
      ih next canonical.tail fun q mem => bounded q (List.mem_cons_of_mem _ mem)
    have stop : (next.first + (2 ^ 32 - 1)) % 2 ^ 32 = next.first - 1 := by omega
    rw [gaps, if_neg (by omega)]
    simp only [stop]
    refine ⟨canonical'.cons (show r.second + 1 ≤ next.first - 1 by omega) fun q mem => ?_, ?_, ?_, fun v => ?_⟩
    · have later := behind q mem
      show next.first - 1 + 1 < q.first
      omega
    · intro q mem
      rcases List.mem_cons.mp mem with rfl | mem
      · show next.first - 1 ≤ m
        omega
      · exact bounded' q mem
    · intro q mem
      rcases List.mem_cons.mp mem with rfl | mem
      · exact Nat.lt_succ_self _
      · have later := behind q mem
        omega
    · rw [covers_cons, covers, covers_cons (r := r)]
      have first := canonical.tail.first_le (v := v)
      have head := canonical.head
      have here : next.first ≤ v ∧ v ≤ next.second → Covers (next :: set) v :=
        fun inside => covers_cons.mpr (.inl inside)
      by_cases covered : Covers (next :: set) v
      · have := first covered
        simp only [covered, or_true, not_true_eq_false, and_false, or_false, iff_false]
        omega
      · have := mt here covered
        simp only [covered, or_false, not_false_eq_true, and_true]
        omega

theorem invert_covers (canonical : Canonical set) (isUtf16 : Bool)
    (bounded : Bounded (maxValue isUtf16) set) :
    Canonical (invert set isUtf16) ∧ Bounded (maxValue isUtf16) (invert set isUtf16) ∧
      ∀ v, Covers (invert set isUtf16) v ↔ v ≤ maxValue isUtf16 ∧ ¬Covers set v := by
  have small := maxValue_lt isUtf16
  have is : (if isUtf16 then 2 ^ 32 - 1 else 2 ^ 16 - 1) = maxValue isUtf16 := rfl
  cases set with
  | nil =>
    rw [invert, is]
    refine ⟨⟨?_, List.pairwise_singleton _ _⟩, ?_, fun v => ?_⟩
    · simp [Proper]
    · simp [Bounded]
    · simp [Covers]
  | cons r set =>
    obtain ⟨canonical', bounded', behind, covers⟩ := gaps_spec small set r canonical bounded
    have proper := canonical.head
    simp only [invert, is]
    split_ifs with full positive
    · refine ⟨⟨fun q mem => (by cases mem), .nil⟩, fun q mem => (by cases mem), fun v => ?_⟩
      have all : v ≤ maxValue isUtf16 → Covers (r :: set) v := fun le =>
        covers_cons.mpr (.inl (by omega))
      refine ⟨?_, fun outside => absurd (all outside.1) outside.2⟩
      rintro ⟨q, mem, -⟩
      cases mem
    · have joined : Canonical (⟨0, r.first - 1⟩ :: gaps (maxValue isUtf16) (r :: set)) :=
        canonical'.cons (Nat.zero_le _) fun q mem => by
          have later := behind q mem
          show r.first - 1 + 1 < q.first
          omega
      rw [compress_eq_self joined]
      refine ⟨joined, fun q mem => ?_, fun v => ?_⟩
      · rcases List.mem_cons.mp mem with rfl | mem
        · have := bounded r List.mem_cons_self
          show r.first - 1 ≤ maxValue isUtf16
          omega
        · exact bounded' q mem
      · have head := bounded r List.mem_cons_self
        have least := canonical.first_le (v := v)
        have here : r.first ≤ v ∧ v ≤ r.second → Covers (r :: set) v :=
          fun inside => covers_cons.mpr (.inl inside)
        rw [covers_cons, covers]
        by_cases covered : Covers (r :: set) v
        · have := least covered
          simp only [covered, not_true_eq_false, and_false, or_false, iff_false]
          omega
        · have := mt here covered
          simp only [covered, not_false_eq_true, and_true]
          omega
    · rw [compress_eq_self canonical']
      refine ⟨canonical', bounded', fun v => ?_⟩
      have here : v ≤ r.second → Covers (r :: set) v := fun le => covers_cons.mpr (.inl (by omega))
      rw [covers]
      by_cases covered : Covers (r :: set) v
      · simp [covered]
      · have := mt here covered
        simp only [covered, not_false_eq_true, and_true]
        omega

/-- `Invert` of a canonical list within the bound is canonical and within the bound, contains what the list
    does not, and undoes itself. -/
theorem invert_spec (set : RangeSet) (isUtf16 : Bool) (canonical : Canonical set)
    (bounded : Bounded (maxValue isUtf16) set) :
    Canonical (invert set isUtf16) ∧ Bounded (maxValue isUtf16) (invert set isUtf16) ∧
      (∀ v, isContain (invert set isUtf16) v = true ↔
        v ≤ maxValue isUtf16 ∧ isContain set v = false) ∧
      invert (invert set isUtf16) isUtf16 = set := by
  obtain ⟨canonical', bounded', covers⟩ := invert_covers canonical isUtf16 bounded
  refine ⟨canonical', bounded', fun v => ?_, ?_⟩
  · rw [isContain_iff, covers, ← isContain_iff, Bool.not_eq_true]
  · obtain ⟨canonical'', -, covers'⟩ := invert_covers canonical' isUtf16 bounded'
    refine canonical''.eq_of_covers canonical fun v => ?_
    rw [covers', covers]
    constructor
    · rintro ⟨le, not⟩
      by_contra absent
      exact not ⟨le, absent⟩
    · rintro ⟨r, mem, above, below⟩
      exact ⟨Nat.le_trans below (bounded r mem), fun absent => absent.2 ⟨r, mem, above, below⟩⟩

theorem invert_spec_letters :
    let set : RangeSet := [⟨0, 64⟩, ⟨97, 122⟩, ⟨0xD800, 0xFFFF⟩]
    (Canonical set ∧ Bounded (maxValue false) set) ∧
      Canonical (invert set false) ∧ Bounded (maxValue false) (invert set false) ∧
      (∀ v, isContain (invert set false) v = true ↔ v ≤ maxValue false ∧ isContain set v = false) ∧
      invert (invert set false) false = set := by
  intro set
  have canonical : Canonical set := by
    refine ⟨?_, ?_⟩
    · simp [Proper, set]
    · simp [Before, set]
  have bounded : Bounded (maxValue false) set := by simp [Bounded, maxValue, set]
  exact ⟨⟨canonical, bounded⟩, invert_spec set false canonical bounded⟩

namespace Build

/-- Two sequences of calls without clashes build the same list exactly if they insert the same values. -/
theorem result_eq_iff {a b : Build} (freeA : a.ClashFree) (freeB : b.ClashFree) :
    a.result = b.result ↔ ∀ v, a.Inserted v ↔ b.Inserted v := by
  constructor
  · intro same v
    rw [← a.covers_result.2, ← b.covers_result.2, same]
  · intro same
    refine (a.canonical_result freeA).eq_of_covers (b.canonical_result freeB) fun v => ?_
    rw [a.covers_result.2, b.covers_result.2, same]

theorem result_eq_iff_joined :
    (insert (insert (insert .empty 1 5) 9 12) 4 10).result = (insert .empty 1 12).result := by
  refine (result_eq_iff ?_ ?_).mpr fun v => ?_
  · simp only [ClashFree]
    decide
  · simp only [ClashFree]
    decide
  · simp only [Inserted, false_or]
    omega

end Build

end RangeSet

end ArkRuntime
