import ArkRuntime.Misc.Loop

/-!
# `GCBitset`

The bitmap of a region (`ecmascript/mem/gc_bitset.h`): words of 32 bits. A range is cleared word by word, with
masks for the first word and the last one; the marked bits are visited word by word, from the lowest bit of a
copy of the word on. `1 << 31` is the word with the highest bit. Without another thread at the same word the
atomic `ClearWord` is the plain one.
-/

namespace ArkRuntime

/-- The number of words is a `uint32_t`. -/
structure GCBitset where
  words : List (BitVec 32)
  small : words.length < 2 ^ 32

namespace GCBitset

variable {σ : Type*}

/-- `Mask`. -/
def mask (index : Nat) : BitVec 32 := 1#32 <<< index

/-- `IndexInWord`. -/
def indexInWord (offset : Nat) : Nat := offset % 32

/-- `Index`. -/
def index (offset : Nat) : Nat := offset / 32

/-- `WordCount`. -/
def wordCount (size : Nat) : Nat := size / 4

/-- `TestBit`. -/
def testBit (words : List (BitVec 32)) (offset : Nat) : Bool :=
  words.getD (index offset) 0#32 &&& mask (indexInWord offset) != 0#32

/-- `ClearWord`. -/
def clearWord (words : List (BitVec 32)) (index : Nat) (mask : BitVec 32) : Bool × List (BitVec 32) :=
  if words.getD index 0#32 &&& mask = 0#32 then (false, words)
  else (true, words.modify index (· &&& ~~~mask))

/-- `ClearBitRange` on the words. -/
def clearBitRange (words : List (BitVec 32)) (offsetBegin offsetEnd : Nat) : List (BitVec 32) :=
  let startIndex := index offsetBegin % 2 ^ 32
  let startIndexMask := mask (indexInWord offsetBegin)
  let endIndex := index (offsetEnd - 1) % 2 ^ 32
  let endIndexMask := mask (indexInWord (offsetEnd - 1))
  if startIndex ≠ endIndex then
    let words := (clearWord words startIndex (~~~(startIndexMask - 1))).2
    let words := (clearWord words endIndex (endIndexMask ||| (endIndexMask - 1))).2
    forLoop (fun i words => words.set (startIndex + 1 + i) 0#32) (endIndex - startIndex - 1) words
  else (clearWord words endIndex (endIndexMask ||| (endIndexMask - startIndexMask))).2

/-- The lowest bit leaves the word. -/
theorem clearLowest_lt {word : BitVec 32} (some : word ≠ 0#32) :
    (word &&& ~~~(1#32 <<< word.ctz.toNat)).toNat < word.toNat := by
  refine Nat.lt_of_le_of_ne (by rw [BitVec.toNat_and]; exact Nat.and_le_left) fun same => ?_
  have bit := BitVec.getLsbD_true_ctz_of_ne_zero some
  have inside := BitVec.lt_of_getLsbD bit
  have gone : (word &&& ~~~(1#32 <<< word.ctz.toNat)).getLsbD word.ctz.toNat = false := by
    simp [inside]
  rw [BitVec.eq_of_toNat_eq same, bit] at gone
  cases gone

/-- The loop of `IterateMarkedBits` over the bits of a word. `TAGGED_TYPE_SIZE_LOG` is 3. -/
def iterateWord (visitor : UInt64 → σ → Bool × σ) (start : UInt64) (i : Nat) (word : BitVec 32)
    (words : List (BitVec 32)) (s : σ) : List (BitVec 32) × σ :=
  if _some : word = 0#32 then (words, s)
  else
    let index := word.ctz.toNat
    let (keep, s) := visitor (start + UInt64.ofNat (index <<< 3)) s
    let words := if !keep then (clearWord words i (mask index)).2 else words
    iterateWord visitor start i (word &&& ~~~(1#32 <<< index)) words s
termination_by word.toNat
decreasing_by exact clearLowest_lt _some

/-- `IterateMarkedBits` on the words. -/
def iterateMarkedBits (visitor : UInt64 → σ → Bool × σ) (words : List (BitVec 32)) (start : UInt64)
    (bitSize : Nat) (s : σ) : List (BitVec 32) × UInt64 × σ :=
  forLoop (fun i (words, start, s) =>
      let (words, s) := iterateWord visitor start i (words.getD i 0#32) words s
      (words, start + 8 * 32, s))
    (wordCount bitSize % 2 ^ 32) (words, start, s)

/-! ## Bits -/

variable {words : List (BitVec 32)}

theorem getLsbD_mask (k j : Nat) : (mask k).getLsbD j = decide (k < 32 ∧ j = k) := by
  rw [mask, ← BitVec.twoPow_eq, BitVec.getLsbD_twoPow]
  simp [eq_comm]

theorem and_mask_eq_zero (word : BitVec 32) (k : Nat) : word &&& mask k = 0#32 ↔ word.getLsbD k = false := by
  constructor
  · intro none
    have bit := congrArg (BitVec.getLsbD · k) none
    rcases Nat.lt_or_ge k 32 with inside | outside
    · rw [BitVec.getLsbD_and, getLsbD_mask, BitVec.getLsbD_zero] at bit
      simpa only [inside, and_self, decide_true, Bool.and_true] using bit
    · exact BitVec.getLsbD_of_ge word k outside
  · intro clear
    refine BitVec.eq_of_getLsbD_eq fun j inside => ?_
    rw [BitVec.getLsbD_and, getLsbD_mask]
    by_cases same : j = k
    · simp [same, clear]
    · simp [same]

theorem testBit_eq (offset : Nat) :
    testBit words offset = (words.getD (offset / 32) 0#32).getLsbD (offset % 32) := by
  rw [testBit, Bool.eq_iff_iff, bne_iff_ne, ne_eq, index, indexInWord, and_mask_eq_zero, Bool.not_eq_false]

/-- The difference of two masks has the bits from one to the other. -/
theorem getLsbD_mask_sub {s e : Nat} (le : s ≤ e) (inside : e < 32) (j : Nat) :
    (mask e - mask s).getLsbD j = decide (s ≤ j ∧ j < e) := by
  have power (k : Nat) (below : k < 32) : (mask k).toNat = 2 ^ k := by
    rw [mask, ← BitVec.twoPow_eq, BitVec.toNat_twoPow]
    exact Nat.mod_eq_of_lt (Nat.pow_lt_pow_right (by decide) below)
  have ordered : 2 ^ s ≤ 2 ^ e := Nat.pow_le_pow_right (by decide) le
  have value : (mask e - mask s).toNat = (2 ^ (e - s) - 1) <<< s := by
    rw [BitVec.toNat_sub_of_le (by rw [BitVec.le_def, power e inside, power s (by omega)]; exact ordered),
      power e inside, power s (by omega), Nat.shiftLeft_eq, Nat.sub_mul, Nat.one_mul, ← Nat.pow_add,
      Nat.sub_add_cancel le]
  rw [BitVec.getLsbD, value, Nat.testBit_shiftLeft, Nat.testBit_two_pow_sub_one, ← Bool.decide_and]
  exact decide_eq_decide.mpr (by omega)

@[simp] theorem length_clearWord (i : Nat) (m : BitVec 32) : (clearWord words i m).2.length = words.length := by
  rw [clearWord]
  split_ifs <;> simp

/-- `ClearWord` takes the bits of the mask away, whether it writes or not. -/
theorem testBit_clearWord (i : Nat) (m : BitVec 32) (j : Nat) :
    testBit (clearWord words i m).2 j = (testBit words j && !(decide (j / 32 = i) && m.getLsbD (j % 32))) := by
  have inside : j % 32 < 32 := Nat.mod_lt _ (by decide)
  rw [testBit_eq, testBit_eq, clearWord]
  by_cases here : j / 32 = i
  · subst here
    split_ifs with none
    · have bit := congrArg (BitVec.getLsbD · (j % 32)) none
      rw [BitVec.getLsbD_and, BitVec.getLsbD_zero, Bool.and_eq_false_imp] at bit
      cases h : (words.getD (j / 32) 0#32).getLsbD (j % 32)
      · rfl
      · rw [bit h, Bool.and_false]
        rfl
    · rcases Nat.lt_or_ge (j / 32) words.length with less | past
      · simp [List.getElem?_modify, less, inside]
      · simp [List.getElem?_eq_none past]
  · split_ifs
    · simp [here]
    · simp [here, Ne.symm here]

/-! ## `ClearBitRange` -/

theorem testBit_zeroWords (first n j : Nat) :
    testBit (forLoop (fun i (words : List (BitVec 32)) => words.set (first + i) 0#32) n words) j =
      (testBit words j && !decide (first ≤ j / 32 ∧ j / 32 < first + n)) := by
  induction n with
  | zero =>
    have none : decide (first ≤ j / 32 ∧ j / 32 < first + 0) = false := decide_eq_false (by omega)
    rw [forLoop, none, Bool.not_false, Bool.and_true]
  | succ n ih =>
    rw [testBit_eq] at ih ⊢
    rw [forLoop]
    by_cases last : first + n = j / 32
    · have inside : decide (first ≤ j / 32 ∧ j / 32 < first + (n + 1)) = true := decide_eq_true (by omega)
      rw [inside, List.getD_eq_getElem?_getD, List.getElem?_set, if_pos last]
      split_ifs <;> simp
    · have same : decide (first ≤ j / 32 ∧ j / 32 < first + (n + 1)) =
          decide (first ≤ j / 32 ∧ j / 32 < first + n) := decide_eq_decide.mpr (by omega)
      rw [same, ← ih, List.getD_eq_getElem?_getD, List.getElem?_set, if_neg last, List.getD_eq_getElem?_getD]

/-- `ClearBitRange` clears the bits of the range and no others. -/
theorem testBit_clearBitRange {offsetBegin offsetEnd : Nat} (less : offsetBegin < offsetEnd)
    (small : offsetEnd ≤ 32 * 2 ^ 32) (j : Nat) :
    testBit (clearBitRange words offsetBegin offsetEnd) j =
      (testBit words j && !decide (offsetBegin ≤ j ∧ j < offsetEnd)) := by
  have one : mask 0 = 1 := rfl
  have inWord (k : Nat) : indexInWord k < 32 := Nat.mod_lt _ (by decide)
  have begins : indexInWord offsetBegin = offsetBegin % 32 := rfl
  have ends : indexInWord (offsetEnd - 1) = (offsetEnd - 1) % 32 := rfl
  have upTo (k : Nat) (m : BitVec 32) (i : Nat) :
      (mask (indexInWord k) ||| m).getLsbD i = (decide (i = indexInWord k) || m.getLsbD i) := by
    rw [BitVec.getLsbD_or, getLsbD_mask]
    simp [inWord k]
  have inside : j % 32 < 32 := Nat.mod_lt _ (by decide)
  have first : index offsetBegin % 2 ^ 32 = offsetBegin / 32 := Nat.mod_eq_of_lt (by rw [index]; omega)
  have last : index (offsetEnd - 1) % 2 ^ 32 = (offsetEnd - 1) / 32 :=
    Nat.mod_eq_of_lt (by rw [index]; omega)
  rw [clearBitRange, first, last]
  dsimp only
  rw [← one]
  by_cases apart : offsetBegin / 32 ≠ (offsetEnd - 1) / 32
  · rw [if_pos apart, testBit_zeroWords, testBit_clearWord, testBit_clearWord, BitVec.getLsbD_not, upTo,
      getLsbD_mask_sub (Nat.zero_le _) (inWord _), getLsbD_mask_sub (Nat.zero_le _) (inWord _),
      Bool.and_assoc, Bool.and_assoc]
    congr 1
    rw [Bool.eq_iff_iff]
    simp only [Bool.and_eq_true, Bool.not_eq_true', Bool.and_eq_false_iff, Bool.or_eq_false_iff,
      Bool.not_eq_false', decide_eq_true_eq, decide_eq_false_iff_not]
    omega
  · have order : indexInWord offsetBegin ≤ indexInWord (offsetEnd - 1) := by
      rw [indexInWord, indexInWord]
      omega
    rw [if_neg apart, testBit_clearWord, upTo, getLsbD_mask_sub order (inWord _)]
    congr 1
    rw [Bool.eq_iff_iff]
    simp only [Bool.not_eq_true', Bool.and_eq_false_iff, Bool.or_eq_false_iff,
      decide_eq_false_iff_not]
    omega

/-! ## `IterateMarkedBits` -/

/-- The visitor at some addresses: its answers, and the state that it leaves. -/
def visitAll (visitor : UInt64 → σ → Bool × σ) : List UInt64 → σ → List Bool × σ
  | [], s => ([], s)
  | a :: as, s =>
      let (keep, s) := visitor a s
      let (answers, s) := visitAll visitor as s
      (keep :: answers, s)

theorem visitAll_append (visitor : UInt64 → σ → Bool × σ) (as bs : List UInt64) (s : σ) :
    visitAll visitor (as ++ bs) s =
      ((visitAll visitor as s).1 ++ (visitAll visitor bs (visitAll visitor as s).2).1,
        (visitAll visitor bs (visitAll visitor as s).2).2) := by
  induction as generalizing s with
  | nil => rfl
  | cons a as ih => simp only [List.cons_append, visitAll, ih]

theorem length_visitAll (visitor : UInt64 → σ → Bool × σ) (as : List UInt64) (s : σ) :
    (visitAll visitor as s).1.length = as.length := by
  induction as generalizing s with
  | nil => rfl
  | cons a as ih => simp only [visitAll, List.length_cons, ih]

/-- The set bits among the first ones, in ascending order. -/
def setBits (n : Nat) (bit : Nat → Bool) : List Nat := (List.range n).filter bit

variable {answers : List Bool} {n j : Nat} {bit : Nat → Bool} {words' : List (BitVec 32)}

theorem setBits_lowest {c : Nat} (inside : c < n) (set : bit c = true) (below : ∀ j < c, bit j = false) :
    setBits n bit = c :: setBits n fun j => bit j && j != c := by
  induction n with
  | zero => exact absurd inside (Nat.not_lt_zero c)
  | succ n ih =>
    rw [setBits, setBits, List.range_succ, List.filter_append, List.filter_append]
    rcases Nat.lt_or_eq_of_le (Nat.lt_succ_iff.mp inside) with less | rfl
    · have other : (n != c) = true := bne_iff_ne.mpr (by omega)
      have same : [n].filter bit = [n].filter fun j => bit j && j != c := by
        simp [List.filter_cons, other]
      rw [same]
      exact congrArg (· ++ _) (ih less)
    · have none (p : Nat → Bool) : (List.range c).filter (fun j => bit j && p j) = [] :=
        List.filter_eq_nil_iff.mpr fun j mem => by simp [below j (List.mem_range.mp mem)]
      have none' : (List.range c).filter bit = [] :=
        List.filter_eq_nil_iff.mpr fun j mem => by simp [below j (List.mem_range.mp mem)]
      rw [none, none']
      simp [set]

theorem setBits_add (m n : Nat) (bit : Nat → Bool) :
    setBits (m + n) bit = setBits m bit ++ (setBits n fun j => bit (m + j)).map (m + ·) := by
  rw [setBits, List.range_add, List.filter_append, List.filter_map]
  rfl

theorem mem_and_not_mem_zip {l : List Nat} (distinct : l.Nodup) (length : l.length = answers.length) :
    (j ∈ l ∧ (j, false) ∉ l.zip answers) ↔ (j, true) ∈ l.zip answers := by
  induction l generalizing answers with
  | nil => simp
  | cons k l ih =>
    obtain ⟨fresh, distinct⟩ := List.nodup_cons.mp distinct
    cases answers with
    | nil => cases length
    | cons answer answers =>
      have ih := ih distinct (Nat.succ.inj length)
      have absent (b : Bool) : (k, b) ∉ l.zip answers := fun mem => fresh (List.of_mem_zip mem).1
      rw [List.zip_cons_cons, List.mem_cons, List.mem_cons, List.mem_cons, not_or, Prod.mk.injEq, Prod.mk.injEq,
        ← ih]
      by_cases here : j = k
      · subst here
        cases answer <;> simp [fresh, absent]
      · simp [here]

/-- What is left after a visit: the bits for which the visitor returned `true`. -/
def Left (words words' : List (BitVec 32)) (bits : List Nat) (answers : List Bool) : Prop :=
  ∀ j, testBit words' j = true ↔ testBit words j = true ∧ (j, false) ∉ bits.zip answers

theorem left_visit {index i : Nat} (inside : index < 32) {keep : Bool} {words : List (BitVec 32)}
    {bits : List Nat}
    (rest : Left (if !keep then (clearWord words i (mask index)).2 else words) words' bits answers) :
    Left words words' ((32 * i + index) :: bits) (keep :: answers) := by
  intro j
  have place : (j / 32 = i ∧ index < 32 ∧ j % 32 = index) ↔ j = 32 * i + index := by omega
  rw [rest j, List.zip_cons_cons, List.mem_cons, not_or, ← and_assoc]
  refine and_congr_left fun _ => ?_
  cases keep with
  | true => simp
  | false =>
    simp only [Bool.not_false, if_true, testBit_clearWord, getLsbD_mask, Bool.and_eq_true, Bool.not_eq_true',
      ← Bool.decide_and, place, decide_eq_false_iff_not, Prod.mk.injEq, and_true]

theorem getLsbD_clearLowest (word : BitVec 32) (index j : Nat) :
    (word &&& ~~~(1#32 <<< index)).getLsbD j = (word.getLsbD j && j != index) := by
  have bit := getLsbD_mask index j
  rw [mask] at bit
  rw [BitVec.getLsbD_and, BitVec.getLsbD_not, bit]
  rcases Nat.lt_or_ge j 32 with inside | outside
  · have same : (index < 32 ∧ j = index) ↔ j = index := by omega
    simp only [inside, same, decide_true, Bool.true_and]
    rfl
  · rw [BitVec.getLsbD_of_ge word j outside, Bool.false_and, Bool.false_and]

theorem iterateWord_spec (visitor : UInt64 → σ → Bool × σ) (start : UInt64) (i : Nat) (word : BitVec 32)
    (words : List (BitVec 32)) (s : σ) :
    let bits := setBits 32 word.getLsbD
    let r := visitAll visitor (bits.map fun k => start + UInt64.ofNat (k <<< 3)) s
    (iterateWord visitor start i word words s).2 = r.2 ∧
      (iterateWord visitor start i word words s).1.length = words.length ∧
      Left words (iterateWord visitor start i word words s).1 (bits.map (32 * i + ·)) r.1 := by
  fun_induction iterateWord visitor start i word words s with
  | case1 words s =>
    have none : setBits 32 (0#32).getLsbD = [] := by decide
    rw [none]
    exact ⟨rfl, rfl, fun j => by simp⟩
  | case2 word words s some index keep s' visit words' ih =>
    have inside : index < 32 := BitVec.lt_of_getLsbD (BitVec.getLsbD_true_ctz_of_ne_zero some)
    have lowest := setBits_lowest inside (BitVec.getLsbD_true_ctz_of_ne_zero some) fun j less =>
      BitVec.getLsbD_false_of_lt_ctz less
    rw [← funext (getLsbD_clearLowest word index)] at lowest
    rw [lowest]
    obtain ⟨state, length, left⟩ := ih
    simp only [List.map_cons, visitAll, visit]
    refine ⟨state, length.trans ?_, left_visit inside left⟩
    simp only [words']
    split_ifs
    · exact length_clearWord _ _
    · rfl

/-- The addresses of bits. -/
def addresses (start : UInt64) (bits : List Nat) : List UInt64 := bits.map fun k => start + UInt64.ofNat (8 * k)

/-- `IterateMarkedBits` before its `i`-th word. -/
structure Visited (visitor : UInt64 → σ → Bool × σ) (words : List (BitVec 32)) (start : UInt64) (s : σ) (i : Nat)
    (r : List (BitVec 32) × UInt64 × σ) : Prop where
  at_word : r.2.1 = start + UInt64.ofNat (8 * (32 * i))
  state : r.2.2 = (visitAll visitor (addresses start (setBits (32 * i) (testBit words))) s).2
  left : Left words r.1 (setBits (32 * i) (testBit words))
    (visitAll visitor (addresses start (setBits (32 * i) (testBit words))) s).1

theorem left_append {words words'' : List (BitVec 32)} {bits bits' : List Nat} {answers' : List Bool}
    (first : Left words words' bits answers) (second : Left words' words'' bits' answers')
    (length : bits.length = answers.length) : Left words words'' (bits ++ bits') (answers ++ answers') := by
  intro j
  rw [second j, first j, List.zip_append length, List.mem_append, not_or, and_assoc]

theorem mem_setBits : j ∈ setBits n bit ↔ j < n ∧ bit j = true := by
  rw [setBits, List.mem_filter, List.mem_range]

/-- The words behind those that are visited are as they were. -/
theorem left_later {words : List (BitVec 32)} (left : Left words words' (setBits n bit) answers)
    (later : n ≤ j) : testBit words' j = testBit words j := by
  rw [Bool.eq_iff_iff, left j, and_iff_left]
  exact fun mem => Nat.not_lt.mpr later (mem_setBits.mp (List.of_mem_zip mem).1).1

theorem visited_step {visitor : UInt64 → σ → Bool × σ} {words : List (BitVec 32)} {start : UInt64} {s : σ}
    {i : Nat} {r : List (BitVec 32) × UInt64 × σ} (visited : Visited visitor words start s i r) :
    Visited visitor words start s (i + 1)
      ((iterateWord visitor r.2.1 i (r.1.getD i 0#32) r.1 r.2.2).1, r.2.1 + 8 * 32,
        (iterateWord visitor r.2.1 i (r.1.getD i 0#32) r.1 r.2.2).2) := by
  obtain ⟨words', start', s'⟩ := r
  obtain ⟨rfl, rfl, left⟩ := visited
  dsimp only at left ⊢
  have word : setBits 32 (words'.getD i 0#32).getLsbD = setBits 32 fun k => testBit words (32 * i + k) := by
    refine List.filter_congr fun k mem => ?_
    have inside := List.mem_range.mp mem
    rw [← left_later left (Nat.le_add_right _ _), testBit_eq, Nat.mul_add_div (by decide),
      Nat.div_eq_of_lt inside, Nat.add_zero, Nat.mul_add_mod, Nat.mod_eq_of_lt inside]
  have here (k : Nat) : start + UInt64.ofNat (8 * (32 * i)) + UInt64.ofNat (k <<< 3) =
      start + UInt64.ofNat (8 * (32 * i + k)) := by
    rw [UInt64.add_assoc, ← UInt64.ofNat_add, Nat.shiftLeft_eq, Nat.mul_add, Nat.mul_comm k]
  have split := setBits_add (32 * i) 32 (testBit words)
  have list : addresses start (setBits (32 * (i + 1)) (testBit words)) =
      addresses start (setBits (32 * i) (testBit words)) ++
        (setBits 32 fun k => testBit words (32 * i + k)).map
          fun k => start + UInt64.ofNat (8 * (32 * i)) + UInt64.ofNat (k <<< 3) := by
    rw [Nat.mul_succ, split, addresses, List.map_append, List.map_map]
    exact congrArg _ (List.map_congr_left fun k _ => (here k).symm)
  obtain ⟨state, -, left'⟩ := iterateWord_spec visitor (start + UInt64.ofNat (8 * (32 * i))) i
    (words'.getD i 0#32) words' (visitAll visitor (addresses start (setBits (32 * i) (testBit words))) s).2
  rw [word] at state left'
  refine ⟨?_, ?_, ?_⟩
  · rw [Nat.mul_succ, Nat.mul_add, UInt64.ofNat_add, ← UInt64.add_assoc]
    rfl
  · rw [list, visitAll_append]
    exact state
  · rw [list, visitAll_append, Nat.mul_succ, split]
    exact left_append left left' (by rw [length_visitAll, addresses, List.length_map])

theorem visited_all (visitor : UInt64 → σ → Bool × σ) (words : List (BitVec 32)) (start : UInt64)
    (bitSize : Nat) (s : σ) : Visited visitor words start s (wordCount bitSize % 2 ^ 32)
      (iterateMarkedBits visitor words start bitSize s) := by
  apply forLoop_spec (I := fun i r => Visited visitor words start s i r)
  · exact ⟨(UInt64.add_zero start).symm, rfl, fun j => by simp [setBits]⟩
  · exact fun i r _ visited => visited_step visited

/-! ## The bitset -/

/-- The bits of the bitset. -/
def bits (b : GCBitset) : List Nat := setBits (32 * b.words.length) (testBit b.words)

/-- `ClearBitRange` clears exactly the bits of the range. `IterateMarkedBits` calls the visitor at exactly the
    set bits, in ascending order and once each, and leaves set exactly those for which it returned `true`. -/
theorem gcBitset_clear_iterate (b : GCBitset) (offsetBegin offsetEnd : Nat) (less : offsetBegin < offsetEnd)
    (inside : offsetEnd ≤ 32 * b.words.length) (visitor : UInt64 → σ → Bool × σ) (start : UInt64) (s : σ) :
    (∀ j, testBit (clearBitRange b.words offsetBegin offsetEnd) j =
        (testBit b.words j && !decide (offsetBegin ≤ j ∧ j < offsetEnd))) ∧
      (b.bits.Pairwise (· < ·) ∧ ∀ j, j ∈ b.bits ↔ testBit b.words j = true) ∧
      (let r := iterateMarkedBits visitor b.words start (4 * b.words.length) s
      let v := visitAll visitor (b.bits.map fun j => start + UInt64.ofNat (8 * j)) s
      r.2.2 = v.2 ∧ ∀ j, testBit r.1 j = true ↔ (j, true) ∈ b.bits.zip v.1) := by
  have small := b.small
  have count : wordCount (4 * b.words.length) % 2 ^ 32 = b.words.length := by
    rw [wordCount, Nat.mul_div_cancel_left _ (by decide)]
    exact Nat.mod_eq_of_lt small
  have visited := visited_all visitor b.words start (4 * b.words.length) s
  rw [count] at visited
  have sorted : b.bits.Pairwise (· < ·) := List.pairwise_lt_range.filter _
  have listed (j : Nat) : j ∈ b.bits ↔ testBit b.words j = true := by
    rw [bits, mem_setBits, and_iff_right_iff_imp]
    intro set
    by_contra past
    rw [testBit_eq, List.getD_eq_getElem?_getD, List.getElem?_eq_none (by omega), Option.getD_none,
      BitVec.getLsbD_zero] at set
    cases set
  refine ⟨testBit_clearBitRange less (by omega), ⟨sorted, listed⟩, visited.state, fun j => ?_⟩
  rw [visited.left j, ← listed j]
  exact mem_and_not_mem_zip (List.nodup_range.filter _) ((length_visitAll ..).trans (List.length_map ..)).symm

/-- A range over the end of a word, and a visitor that keeps every second bit. -/
theorem gcBitset_clear_iterate_words :
    (∀ j, testBit (clearBitRange [0xFFFFFFFF#32, 0xFFFFFFFF#32] 31 33) j =
        (testBit [0xFFFFFFFF#32, 0xFFFFFFFF#32] j && !decide (31 ≤ j ∧ j < 33))) ∧
      clearBitRange [0xFFFFFFFF#32, 0xFFFFFFFF#32] 31 33 = [0x7FFFFFFF#32, 0xFFFFFFFE#32] :=
  ⟨(gcBitset_clear_iterate ⟨[0xFFFFFFFF#32, 0xFFFFFFFF#32], by decide⟩ 31 33 (by decide) (by decide)
    (fun _ keep => (keep, !keep)) 0 true).1, by decide⟩

end GCBitset

end ArkRuntime
