import Mathlib.Algebra.Order.Ring.Int

/-!
# `RangeSet`

The character ranges of a class (`ecmascript/regexp/regexp_opcode.h` and `.cpp`): a list of ranges, each
with its first and its last value. The two tests that decide whether ranges are merged widen their
arguments to 64 bits, so that nothing overflows and the values are numbers here.

`IsIntersect` and `IsAdjacent` together see every pair of ranges that overlap or touch, with one
exception: two ranges of more than one value each that begin at the same value.
-/

namespace ArkRuntime

structure CharRange where
  first : Nat
  second : Nat
deriving DecidableEq, Repr

/-- `rangeSet_`. -/
abbrev RangeSet := List CharRange

namespace RangeSet

/-- `IsIntersect`. -/
def isIntersect (start stop start1 stop1 : Nat) : Bool :=
  (start1 > start && start1 < stop) || (start > start1 && start < stop1)

/-- `IsAdjacent`. -/
def isAdjacent (start stop start1 stop1 : Nat) : Bool :=
  (stop == start1 || stop + 1 == start1) || (stop1 == start || stop1 + 1 == start)

/-- The condition under which `Insert` and `Compress` merge two ranges. -/
def merges (a b : CharRange) : Bool :=
  isIntersect a.first a.second b.first b.second || isAdjacent a.first a.second b.first b.second

def merge (a b : CharRange) : CharRange := ⟨min a.first b.first, max a.second b.second⟩

/-- `IsContain`. -/
def isContain (set : RangeSet) (value : Nat) : Bool :=
  set.any fun range => range.first ≤ value && value ≤ range.second

/-- The loop of `Compress`, with `iter` and the ranges from `iter2` on. -/
def compressFrom (iter : CharRange) : RangeSet → RangeSet
  | [] => [iter]
  | iter2 :: rest =>
      if merges iter iter2 then compressFrom (merge iter iter2) rest
      else iter :: compressFrom iter2 rest

/-- `Compress`; it is called with a list that is not empty. -/
def compress : RangeSet → RangeSet
  | [] => []
  | iter :: rest => compressFrom iter rest

/-- The loop of `Insert(start, end)`, with the ranges that `iter` has passed. -/
def insertFrom (pairElement : CharRange) (passed : RangeSet) : RangeSet → RangeSet
  | [] => passed ++ [pairElement]
  | iter :: rest =>
      if merges pairElement iter then compress (passed ++ merge iter pairElement :: rest)
      else if iter.first > pairElement.second then passed ++ pairElement :: iter :: rest
      else insertFrom pairElement (passed ++ [iter]) rest

/-- `Insert(start, end)`. -/
def insert (set : RangeSet) (start stop : Nat) : RangeSet :=
  if start > stop then set
  else if set.isEmpty then [⟨start, stop⟩]
  else insertFrom ⟨start, stop⟩ [] set

/-- `Insert(RangeSet)`. -/
def insertSet (set s1 : RangeSet) : RangeSet :=
  if s1.isEmpty then set
  else if set.isEmpty then s1
  else compress (s1.foldl (fun set range => insert set range.first range.second) set)

/-- `HighestValue`. -/
def highestValue (set : RangeSet) : Nat :=
  match set.getLast? with
  | some range => range.second
  | none => 0

/-- One pair of ranges in `Inter`. -/
def interRanges (interItem : CharRange) (cr : RangeSet) (range : CharRange) : RangeSet :=
  let firstMax := max range.first interItem.first
  let secondMin := min range.second interItem.second
  if secondMin < firstMax then cr
  else if 97 ≤ firstMax ∧ firstMax ≤ 122 then cr.insert (firstMax - 32) (secondMin - 32)
  else if 65 ≤ firstMax ∧ firstMax ≤ 90 then cr.insert (firstMax + 32) (secondMin + 32)
  else cr

/-- `Inter`: the set itself and `cr`. -/
def inter (set cr s1 : RangeSet) : RangeSet × RangeSet :=
  if s1.isEmpty then ([], cr)
  else if set.isEmpty then (set, cr)
  else (set, s1.foldl (fun cr interItem => set.foldl (interRanges interItem) cr) cr)

/-- The loop of `Invert`: the gaps behind the ranges, up to one that reaches `maxValue`. -/
def gaps (maxValue : Nat) : RangeSet → RangeSet
  | [] => []
  | iter :: rest =>
      if iter.second = maxValue then rest
      else
        let stop := match rest with
          | iter2 :: _ => (iter2.first + (2 ^ 32 - 1)) % 2 ^ 32
          | [] => maxValue
        ⟨iter.second + 1, stop⟩ :: gaps maxValue rest

/-- `Invert`. -/
def invert (set : RangeSet) (isUtf16 : Bool) : RangeSet :=
  let maxValue := if isUtf16 then 2 ^ 32 - 1 else 2 ^ 16 - 1
  match set with
  | [] => [⟨0, maxValue⟩]
  | iter :: _ =>
      if iter.first = 0 ∧ iter.second = maxValue then []
      else if iter.first > 0 then compress (⟨0, iter.first - 1⟩ :: gaps maxValue set)
      else compress (gaps maxValue set)

/-! ## What the ranges cover -/

def Covers (set : RangeSet) (v : Nat) : Prop := ∃ r ∈ set, r.first ≤ v ∧ v ≤ r.second

theorem isContain_iff (set : RangeSet) (v : Nat) : isContain set v = true ↔ Covers set v := by
  simp [isContain, Covers]

/-- No range is empty. -/
def Proper (set : RangeSet) : Prop := ∀ r ∈ set, r.first ≤ r.second

variable {set : RangeSet} {r a b : CharRange} {v : Nat}

theorem covers_cons : Covers (r :: set) v ↔ (r.first ≤ v ∧ v ≤ r.second) ∨ Covers set v := by
  simp [Covers]

theorem covers_append {a b : RangeSet} : Covers (a ++ b) v ↔ Covers a v ∨ Covers b v := by
  simp only [Covers, List.mem_append]
  constructor
  · rintro ⟨r, left | right, inside⟩
    · exact .inl ⟨r, left, inside⟩
    · exact .inr ⟨r, right, inside⟩
  · rintro (⟨r, mem, inside⟩ | ⟨r, mem, inside⟩)
    · exact ⟨r, .inl mem, inside⟩
    · exact ⟨r, .inr mem, inside⟩

theorem merges_iff (a b : CharRange) : merges a b = true ↔
    ((a.first < b.first ∧ b.first < a.second) ∨ (b.first < a.first ∧ a.first < b.second)) ∨
      (a.second = b.first ∨ a.second + 1 = b.first) ∨ b.second = a.first ∨ b.second + 1 = a.first := by
  simp [merges, isIntersect, isAdjacent]

/-- Ranges that are merged leave no value between them. -/
theorem covers_merge (hit : merges a b = true) (ha : a.first ≤ a.second) (hb : b.first ≤ b.second) :
    ((merge a b).first ≤ v ∧ v ≤ (merge a b).second) ↔
      (a.first ≤ v ∧ v ≤ a.second) ∨ (b.first ≤ v ∧ v ≤ b.second) := by
  rw [merges_iff] at hit
  simp only [merge, Nat.min_def, Nat.max_def]
  split_ifs <;> omega

theorem merges_symm : merges a b = merges b a := by
  rw [Bool.eq_iff_iff, merges_iff, merges_iff]
  omega

theorem proper_merge (ha : a.first ≤ a.second) : (merge a b).first ≤ (merge a b).second := by
  simp only [merge]
  omega

theorem covers_compressFrom (rest : RangeSet) (iter : CharRange) (here : iter.first ≤ iter.second)
    (proper : Proper rest) :
    Proper (compressFrom iter rest) ∧
      ∀ v, Covers (compressFrom iter rest) v ↔ Covers (iter :: rest) v := by
  induction rest generalizing iter with
  | nil => exact ⟨by simpa [Proper, compressFrom] using here, fun v => Iff.rfl⟩
  | cons iter2 rest ih =>
    have next : iter2.first ≤ iter2.second := proper iter2 List.mem_cons_self
    have others : Proper rest := fun r mem => proper r (List.mem_cons_of_mem _ mem)
    rw [compressFrom]
    split_ifs with hit
    · obtain ⟨proper', covers⟩ := ih (merge iter iter2) (proper_merge here) others
      refine ⟨proper', fun v => ?_⟩
      rw [covers, covers_cons, covers_cons, covers_cons, covers_merge hit here next, or_assoc]
    · obtain ⟨proper', covers⟩ := ih iter2 next others
      refine ⟨fun r mem => ?_, fun v => ?_⟩
      · rcases List.mem_cons.mp mem with rfl | mem
        · exact here
        · exact proper' r mem
      · rw [covers_cons, covers, ← covers_cons]

theorem covers_compress (proper : Proper set) :
    Proper (compress set) ∧ ∀ v, Covers (compress set) v ↔ Covers set v := by
  cases set with
  | nil => exact ⟨proper, fun v => Iff.rfl⟩
  | cons iter rest =>
    exact covers_compressFrom rest iter (proper iter List.mem_cons_self)
      fun r mem => proper r (List.mem_cons_of_mem _ mem)

theorem covers_insertFrom {pair : CharRange} (here : pair.first ≤ pair.second) (set passed : RangeSet)
    (proper : Proper (passed ++ set)) :
    Proper (insertFrom pair passed set) ∧ ∀ v, Covers (insertFrom pair passed set) v ↔
      Covers (passed ++ set) v ∨ (pair.first ≤ v ∧ v ≤ pair.second) := by
  induction set generalizing passed with
  | nil =>
    rw [List.append_nil] at proper ⊢
    refine ⟨fun r mem => ?_, fun v => ?_⟩
    · rcases List.mem_append.mp mem with mem | mem
      · exact proper r mem
      · rw [List.mem_singleton.mp mem]
        exact here
    · rw [insertFrom, covers_append]
      simp [Covers]
  | cons iter rest ih =>
    have next : iter.first ≤ iter.second := proper iter (by simp)
    rw [insertFrom]
    split_ifs with hit before
    · have proper1 : Proper (passed ++ merge iter pair :: rest) := by
        intro r mem
        rcases List.mem_append.mp mem with mem | mem
        · exact proper r (List.mem_append_left _ mem)
        · rcases List.mem_cons.mp mem with rfl | mem
          · exact proper_merge next
          · exact proper r (List.mem_append_right _ (List.mem_cons_of_mem _ mem))
      obtain ⟨proper', covers⟩ := covers_compress proper1
      refine ⟨proper', fun v => ?_⟩
      rw [merges_symm] at hit
      rw [covers, covers_append, covers_cons, covers_merge hit next here, covers_append, covers_cons]
      grind
    · refine ⟨fun r mem => ?_, fun v => ?_⟩
      · rcases List.mem_append.mp mem with mem | mem
        · exact proper r (List.mem_append_left _ mem)
        · rcases List.mem_cons.mp mem with rfl | mem
          · exact here
          · exact proper r (List.mem_append_right _ mem)
      · rw [covers_append, covers_cons, covers_append]
        grind
    · have same : passed ++ [iter] ++ rest = passed ++ iter :: rest := by simp
      have found := ih (passed ++ [iter]) (by rw [same]; exact proper)
      rwa [same] at found

theorem covers_insert (proper : Proper set) (start stop : Nat) :
    Proper (insert set start stop) ∧
      ∀ v, Covers (insert set start stop) v ↔ Covers set v ∨ (start ≤ v ∧ v ≤ stop) := by
  rw [insert]
  split_ifs with empty nothing
  · exact ⟨proper, fun v => ⟨.inl, fun h => h.elim id fun between => by omega⟩⟩
  · rw [List.isEmpty_iff] at nothing
    subst nothing
    refine ⟨fun r mem => ?_, fun v => ?_⟩
    · rw [List.mem_singleton.mp mem]
      exact Nat.not_lt.mp empty
    · simp [Covers]
  · have here : (⟨start, stop⟩ : CharRange).first ≤ (⟨start, stop⟩ : CharRange).second :=
      Nat.not_lt.mp empty
    simpa using covers_insertFrom here set [] (by simpa using proper)

theorem covers_foldl (s1 set : RangeSet) (proper : Proper set) :
    Proper (s1.foldl (fun set range => insert set range.first range.second) set) ∧
      ∀ v, Covers (s1.foldl (fun set range => insert set range.first range.second) set) v ↔
        Covers set v ∨ Covers s1 v := by
  induction s1 generalizing set with
  | nil => exact ⟨proper, fun v => by simp [Covers]⟩
  | cons r s1 ih =>
    obtain ⟨proper1, covers1⟩ := covers_insert proper r.first r.second
    obtain ⟨proper', covers⟩ := ih _ proper1
    refine ⟨proper', fun v => ?_⟩
    rw [List.foldl_cons, covers, covers1, covers_cons, or_assoc]

theorem covers_insertSet {s1 : RangeSet} (proper : Proper set) (proper1 : Proper s1) :
    Proper (insertSet set s1) ∧ ∀ v, Covers (insertSet set s1) v ↔ Covers set v ∨ Covers s1 v := by
  rw [insertSet]
  split_ifs with nothing empty
  · rw [List.isEmpty_iff] at nothing
    subst nothing
    exact ⟨proper, fun v => by simp [Covers]⟩
  · rw [List.isEmpty_iff] at empty
    subst empty
    exact ⟨proper1, fun v => by simp [Covers]⟩
  · obtain ⟨proper', covers⟩ := covers_foldl s1 set proper
    obtain ⟨proper'', covers'⟩ := covers_compress proper'
    exact ⟨proper'', fun v => (covers' v).trans (covers v)⟩

/-! ## The order of the ranges -/

/-- `a` ends at least two values before `b` begins. -/
def Before (a b : CharRange) : Prop := a.second + 1 < b.first

/-- The ranges ascend, are disjoint and do not touch. -/
structure Canonical (set : RangeSet) : Prop where
  proper : Proper set
  apart : set.Pairwise Before

/-- The one case that neither test sees. -/
def Clash (a b : CharRange) : Prop := a.first = b.first ∧ a.first < a.second ∧ b.first < b.second

instance decidableClash (a b : CharRange) : Decidable (Clash a b) :=
  inferInstanceAs (Decidable (_ ∧ _ ∧ _))

theorem not_merges_of_before (ha : a.first ≤ a.second) (hb : b.first ≤ b.second) (before : Before a b) :
    ¬ merges a b = true := by
  rw [merges_iff]
  simp only [Before] at before
  omega

/-- Apart from a clash, ranges that are not merged have a gap between them. -/
theorem before_or_after (ha : a.first ≤ a.second) (hb : b.first ≤ b.second) (apart : ¬ Clash a b)
    (miss : ¬ merges a b = true) : Before a b ∨ Before b a := by
  rw [merges_iff] at miss
  simp only [Clash] at apart
  simp only [Before]
  omega

theorem Canonical.tail (canonical : Canonical (r :: set)) : Canonical set :=
  ⟨fun q mem => canonical.proper q (List.mem_cons_of_mem _ mem), canonical.apart.tail⟩

theorem Canonical.head (canonical : Canonical (r :: set)) : r.first ≤ r.second :=
  canonical.proper r List.mem_cons_self

theorem Canonical.behind {q : CharRange} (canonical : Canonical (r :: set)) (mem : q ∈ set) : Before r q :=
  List.rel_of_pairwise_cons canonical.apart mem

theorem Canonical.cons (canonical : Canonical set) (proper : r.first ≤ r.second)
    (before : ∀ q ∈ set, Before r q) : Canonical (r :: set) := by
  refine ⟨fun q mem => ?_, List.pairwise_cons.mpr ⟨before, canonical.apart⟩⟩
  rcases List.mem_cons.mp mem with rfl | mem
  · exact proper
  · exact canonical.proper q mem

theorem Before.trans {c : CharRange} (first : Before a b) (proper : b.first ≤ b.second) (second : Before b c) :
    Before a c := by
  simp only [Before] at first second ⊢
  omega

theorem compressFrom_eq_self {iter : CharRange} {rest : RangeSet} (canonical : Canonical (iter :: rest)) :
    compressFrom iter rest = iter :: rest := by
  induction rest generalizing iter with
  | nil => rfl
  | cons iter2 rest ih =>
    have miss := not_merges_of_before canonical.head canonical.tail.head
      (canonical.behind List.mem_cons_self)
    rw [compressFrom, if_neg miss, ih canonical.tail]

/-- `Compress` joins `iter` with the ranges it reaches. -/
theorem canonical_compressFrom (rest : RangeSet) (iter : CharRange) (here : iter.first ≤ iter.second)
    (canonical : Canonical rest) (ascending : ∀ r ∈ rest, iter.first < r.first) :
    Canonical (compressFrom iter rest) ∧
      ∀ r ∈ compressFrom iter rest, r.first = iter.first ∨ r ∈ rest := by
  induction rest generalizing iter with
  | nil =>
    refine ⟨canonical.cons here (by simp), fun r mem => .inl ?_⟩
    rw [List.mem_singleton.mp mem]
  | cons iter2 rest ih =>
    have next := canonical.head
    have first := ascending iter2 List.mem_cons_self
    rw [compressFrom]
    split_ifs with hit
    · have same : (merge iter iter2).first = iter.first := Nat.min_eq_left (Nat.le_of_lt first)
      obtain ⟨canonical', members⟩ := ih (merge iter iter2) (proper_merge here) canonical.tail
        fun r mem => by rw [same]; exact ascending r (List.mem_cons_of_mem _ mem)
      refine ⟨canonical', fun r mem => ?_⟩
      rcases members r mem with is | mem
      · exact .inl (is.trans same)
      · exact .inr (List.mem_cons_of_mem _ mem)
    · have gap : Before iter iter2 := by
        rcases before_or_after here next (fun clash => by have := clash.1; omega) hit with gap | gap
        · exact gap
        · simp only [Before] at gap
          omega
      rw [compressFrom_eq_self canonical]
      refine ⟨canonical.cons here fun r mem => ?_, fun r mem => ?_⟩
      · rcases List.mem_cons.mp mem with rfl | mem
        · exact gap
        · exact gap.trans next (canonical.behind mem)
      · rcases List.mem_cons.mp mem with rfl | mem
        · exact .inl rfl
        · exact .inr mem

/-- The ranges before the one that has been merged are left alone. -/
theorem compress_append {passed rest : RangeSet} (here : r.first ≤ r.second) (canonical : Canonical passed)
    (before : ∀ q ∈ passed, Before q r) : compress (passed ++ r :: rest) = passed ++ compressFrom r rest := by
  induction passed with
  | nil => rfl
  | cons iter passed ih =>
    have tail := ih canonical.tail fun q mem => before q (List.mem_cons_of_mem _ mem)
    cases passed with
    | nil =>
      have miss := not_merges_of_before canonical.head here (before iter List.mem_cons_self)
      simp only [List.cons_append, List.nil_append, compress, compressFrom, miss]
      rfl
    | cons iter2 passed =>
      have miss := not_merges_of_before canonical.head canonical.tail.head
        (canonical.behind List.mem_cons_self)
      simp only [List.cons_append, compress] at tail
      simp only [List.cons_append, compress, compressFrom, miss, tail]
      rfl

theorem Canonical.append {a b : RangeSet} (left : Canonical a) (right : Canonical b)
    (before : ∀ q ∈ a, ∀ r ∈ b, Before q r) : Canonical (a ++ b) := by
  refine ⟨fun r mem => ?_, List.pairwise_append.mpr ⟨left.apart, right.apart, before⟩⟩
  rcases List.mem_append.mp mem with mem | mem
  · exact left.proper r mem
  · exact right.proper r mem

theorem Canonical.split {a b : RangeSet} (canonical : Canonical (a ++ b)) :
    Canonical a ∧ Canonical b ∧ ∀ q ∈ a, ∀ r ∈ b, Before q r := by
  obtain ⟨left, right, between⟩ := List.pairwise_append.mp canonical.apart
  exact ⟨⟨fun r mem => canonical.proper r (List.mem_append_left _ mem), left⟩,
    ⟨fun r mem => canonical.proper r (List.mem_append_right _ mem), right⟩, between⟩

/-- The loop of `Insert`, when no range begins where the new one does. What is new begins no later than
    the new range. -/
theorem canonical_insertFrom {pair : CharRange} (here : pair.first ≤ pair.second) (set passed : RangeSet)
    (canonical : Canonical (passed ++ set)) (before : ∀ q ∈ passed, Before q pair)
    (apart : ∀ q ∈ set, ¬ Clash pair q) :
    Canonical (insertFrom pair passed set) ∧
      ∀ r ∈ insertFrom pair passed set, r.first ≤ pair.first ∨ r ∈ passed ++ set := by
  induction set generalizing passed with
  | nil =>
    rw [List.append_nil] at canonical
    refine ⟨canonical.append ⟨by simpa [Proper] using here, List.pairwise_singleton _ _⟩ ?_, ?_⟩
    · intro q mem r single
      rw [List.mem_singleton.mp single]
      exact before q mem
    · intro r mem
      rcases List.mem_append.mp mem with mem | mem
      · exact .inr (List.mem_append_left _ mem)
      · exact .inl (Nat.le_of_eq (congrArg CharRange.first (List.mem_singleton.mp mem)))
  | cons iter rest ih =>
    obtain ⟨left, right, between⟩ := canonical.split
    have next := right.head
    rw [insertFrom]
    split_ifs with hit ahead
    · -- the range is joined with `iter`, and then with what it reaches behind `iter`
      have start : (merge iter pair).first ≤ pair.first := Nat.min_le_right _ _
      have gap : ∀ q ∈ passed, Before q (merge iter pair) := by
        intro q mem
        have first := between q mem iter List.mem_cons_self
        have second := before q mem
        simp only [Before, merge] at first second ⊢
        omega
      have ascending : ∀ r ∈ rest, (merge iter pair).first < r.first := by
        intro r mem
        have later := right.behind mem
        simp only [Before, merge] at later ⊢
        omega
      obtain ⟨joined, members⟩ := canonical_compressFrom rest (merge iter pair) (proper_merge next)
        right.tail ascending
      rw [compress_append (proper_merge next) left gap]
      refine ⟨left.append joined fun q mem r mem' => ?_, fun r mem => ?_⟩
      · rcases members r mem' with is | mem'
        · have := gap q mem
          simp only [Before] at this ⊢
          omega
        · exact between q mem r (List.mem_cons_of_mem _ mem')
      · rcases List.mem_append.mp mem with mem | mem
        · exact .inr (List.mem_append_left _ mem)
        · rcases members r mem with is | mem
          · exact .inl (is ▸ start)
          · exact .inr (List.mem_append_right _ (List.mem_cons_of_mem _ mem))
    · have gap : Before pair iter := by
        rcases before_or_after here next (apart iter List.mem_cons_self) hit with gap | gap
        · exact gap
        · simp only [Before] at gap
          omega
      refine ⟨left.append (right.cons here fun r mem => ?_) fun q mem r mem' => ?_, fun r mem => ?_⟩
      · rcases List.mem_cons.mp mem with rfl | mem
        · exact gap
        · exact gap.trans next (right.behind mem)
      · rcases List.mem_cons.mp mem' with rfl | mem'
        · exact before q mem
        · exact between q mem r mem'
      · rcases List.mem_append.mp mem with mem | mem
        · exact .inr (List.mem_append_left _ mem)
        · rcases List.mem_cons.mp mem with rfl | mem
          · exact .inl (Nat.le_refl _)
          · exact .inr (List.mem_append_right _ mem)
    · have gap : Before iter pair := by
        rcases before_or_after here next (apart iter List.mem_cons_self) hit with gap | gap
        · simp only [Before] at gap
          omega
        · exact gap
      have same : passed ++ [iter] ++ rest = passed ++ iter :: rest := by simp
      have found := ih (passed ++ [iter]) (by rw [same]; exact canonical) (fun q mem => by
          rcases List.mem_append.mp mem with mem | mem
          · exact before q mem
          · rw [List.mem_singleton.mp mem]
            exact gap) fun q mem => apart q (List.mem_cons_of_mem _ mem)
      rwa [same] at found

theorem canonical_insert (canonical : Canonical set) {start stop : Nat}
    (apart : ∀ q ∈ set, ¬ Clash ⟨start, stop⟩ q) :
    Canonical (insert set start stop) ∧ ∀ r ∈ insert set start stop, r.first ≤ start ∨ r ∈ set := by
  rw [insert]
  split_ifs with empty nothing
  · exact ⟨canonical, fun r mem => .inr mem⟩
  · refine ⟨⟨?_, List.pairwise_singleton _ _⟩, fun r mem => .inl ?_⟩
    · intro r mem
      rw [List.mem_singleton.mp mem]
      exact Nat.not_lt.mp empty
    · exact Nat.le_of_eq (congrArg CharRange.first (List.mem_singleton.mp mem))
  · have proper : (⟨start, stop⟩ : CharRange).first ≤ (⟨start, stop⟩ : CharRange).second :=
      Nat.not_lt.mp empty
    simpa using canonical_insertFrom proper set [] (by simpa using canonical) (by simp) apart

theorem compress_eq_self (canonical : Canonical set) : compress set = set := by
  cases set with
  | nil => rfl
  | cons iter rest => exact compressFrom_eq_self canonical

/-- The ranges of a set are inserted in ascending order, so that none begins where one that was merged
    before does. -/
theorem canonical_foldl (s1 set : RangeSet) (canonical : Canonical set) (canonical1 : Canonical s1)
    (apart : ∀ r ∈ s1, ∀ q ∈ set, ¬ Clash r q) :
    Canonical (s1.foldl (fun set range => insert set range.first range.second) set) := by
  induction s1 generalizing set with
  | nil => exact canonical
  | cons r s1 ih =>
    obtain ⟨canonical', members⟩ := canonical_insert canonical (apart r List.mem_cons_self)
    refine ih _ canonical' canonical1.tail fun later mem q there clash => ?_
    rcases members q there with before | there
    · have behind := canonical1.behind mem
      have proper := canonical1.head
      have same := clash.1
      simp only [Before] at behind
      omega
    · exact apart later (List.mem_cons_of_mem _ mem) q there clash

theorem canonical_insertSet {s1 : RangeSet} (canonical : Canonical set) (canonical1 : Canonical s1)
    (apart : ∀ r ∈ s1, ∀ q ∈ set, ¬ Clash r q) : Canonical (insertSet set s1) := by
  rw [insertSet]
  split_ifs
  · exact canonical
  · exact canonical1
  · have joined := canonical_foldl s1 set canonical canonical1 apart
    rw [compress_eq_self joined]
    exact joined

/-! ## Sequences of calls -/

/-- How a set comes to be: the calls on it, with the sets that are inserted into it. -/
inductive Build where
  | empty
  | insert (set : Build) (start stop : Nat)
  | insertSet (set s1 : Build)

namespace Build

def result : Build → RangeSet
  | .empty => []
  | .insert set start stop => RangeSet.insert set.result start stop
  | .insertSet set s1 => RangeSet.insertSet set.result s1.result

/-- `v` lies in one of the ranges that have been inserted. -/
def Inserted (v : Nat) : Build → Prop
  | .empty => False
  | .insert set start stop => set.Inserted v ∨ (start ≤ v ∧ v ≤ stop)
  | .insertSet set s1 => set.Inserted v ∨ s1.Inserted v

/-- No call inserts a range of more than one value into a set with another such range that begins at the
    same value. -/
def ClashFree : Build → Prop
  | .empty => True
  | .insert set start stop => set.ClashFree ∧ ∀ q ∈ set.result, ¬ Clash ⟨start, stop⟩ q
  | .insertSet set s1 =>
      set.ClashFree ∧ s1.ClashFree ∧ ∀ r ∈ s1.result, ∀ q ∈ set.result, ¬ Clash r q

theorem covers_result (calls : Build) :
    Proper calls.result ∧ ∀ v, Covers calls.result v ↔ calls.Inserted v := by
  induction calls with
  | empty => exact ⟨fun r mem => (by cases mem), fun v => by simp [result, Covers, Inserted]⟩
  | insert set start stop ih =>
    obtain ⟨proper, covers⟩ := covers_insert ih.1 start stop
    refine ⟨proper, fun v => ?_⟩
    rw [result, covers, ih.2]
    rfl
  | insertSet set s1 ih ih1 =>
    obtain ⟨proper, covers⟩ := covers_insertSet ih.1 ih1.1
    refine ⟨proper, fun v => ?_⟩
    rw [result, covers, ih.2, ih1.2]
    rfl

theorem canonical_result (calls : Build) (free : calls.ClashFree) : Canonical calls.result := by
  induction calls with
  | empty => exact ⟨fun r mem => (by cases mem), .nil⟩
  | insert set start stop ih => exact (canonical_insert (ih free.1) free.2).1
  | insertSet set s1 ih ih1 => exact canonical_insertSet (ih free.1) (ih1 free.2.1) free.2.2

/-- As long as no call clashes, the list is canonical and `IsContain` is right. -/
theorem rangeSet_canonical_of_clashFree (calls : Build) (free : calls.ClashFree) :
    Canonical calls.result ∧ ∀ v, isContain calls.result v = true ↔ calls.Inserted v :=
  ⟨calls.canonical_result free, fun v => (isContain_iff _ v).trans (calls.covers_result.2 v)⟩

theorem rangeSet_canonical_of_clashFree_joined :
    (insertSet (insert (insert .empty 1 5) 9 12) (insert (insert .empty 3 7) 9 9)).ClashFree ∧
      Canonical (insertSet (insert (insert .empty 1 5) 9 12) (insert (insert .empty 3 7) 9 9)).result := by
  have free : (insertSet (insert (insert .empty 1 5) 9 12)
      (insert (insert .empty 3 7) 9 9)).ClashFree := by
    simp only [ClashFree]
    decide
  exact ⟨free, (rangeSet_canonical_of_clashFree _ free).1⟩

/-- The class `[a-ca-f]`: the two ranges begin with `a` and both stay. -/
theorem rangeSet_not_canonical :
    (insert (insert .empty 97 99) 97 102).result = [⟨97, 99⟩, ⟨97, 102⟩] ∧
      ¬ Canonical (insert (insert .empty 97 99) 97 102).result := by
  refine ⟨by decide, fun canonical => ?_⟩
  have gap : 99 + 1 < 97 := List.rel_of_pairwise_cons canonical.apart List.mem_cons_self
  omega

end Build

end RangeSet

end ArkRuntime
