import ArkRuntime.RegExp.CaptureSlots
import ArkRuntime.RegExp.Invert

/-!
# The class instructions in their bytes

`RangeOpCode` and `Range32OpCode` write the number of ranges in 16 bits and behind it the ends of the
ranges, in 16 and 32 bits. The handlers look for a character by a binary search in these bytes. The number
is cut to 16 bits, so a set of 2^16 ranges or more is not the one that is searched.
-/

namespace ArkRuntime

namespace RegExp

open Backtracking

variable {set : RangeSet} {c : Nat}

/-! ## The handlers on the bytes -/

/-- A `size_t` sum of which a part may be negative. -/
def address (pc : Nat) (offset : Int) : Nat := (((pc : Int) + offset) % 2 ^ 64).toNat

/-- Where the range `idx` has its lower end, if an end takes `width` bytes. -/
def lowAddress (width pc : Nat) (idx : Int) : Nat := address pc (3 + idx * (2 * width))

/-- Where the range `idx` has its upper end. -/
def highAddress (width pc : Nat) (idx : Int) : Nat := address pc (3 + idx * (2 * width) + width)

/-- One round of the binary search, with `idxMin` and `idxMax`. -/
def searchRound (get : Nat → Option Nat) (width pc nowChar : Nat) (bounds : Int × Int) :
    (Int × Int) ⊕ Option Bool :=
  if bounds.1 ≤ bounds.2 then
    let idx := (bounds.1 + bounds.2) / 2
    match get (lowAddress width pc idx), get (highAddress width pc idx) with
    | some low, some high =>
        if nowChar < low then .inl (bounds.1, idx - 1)
        else if high < nowChar then .inl (idx + 1, bounds.2)
        else .inr (some true)
    | _, _ => .inr none
  else .inr (some false)

/-- The search of both handlers. The upper end of the last range is read even if there is no range. -/
def searchRanges (get : Nat → Option Nat) (width pc nowChar rangeCount : Nat) : Option Bool := do
  let idxMax : Int := rangeCount - 1
  let high ← get (highAddress width pc idxMax)
  if nowChar ≤ high then
    (iter (searchRound get width pc nowChar) (rangeCount + 1) (0, idxMax)).join
  else return false

namespace Executor

variable (e : Executor)

/-- `IsFoundOpRange`. -/
def isFoundOpRangeBytes (currentPc nowChar rangeCount : Nat) : Option Bool :=
  searchRanges (getU16 e.program.byteCode) 2 currentPc nowChar rangeCount

/-- `HandleOpRange32`. -/
def handleOpRange32Bytes (s : ExecState) : Option (Effect ExecState) := do
  if e.isEOF s.currentPtr then return .fail
  else
    let (c, ptr) ← e.getChar s.currentPtr e.input.length
    let currentChar := if e.isIgnoreCase then canonicalize e.icu c e.isUtf16 else c
    let rangeCount ← getU16 e.program.byteCode (s.currentPc + 1)
    let isFound ← searchRanges (getU32 e.program.byteCode) 4 s.currentPc currentChar rangeCount
    if isFound then
      return .next { s with currentPtr := ptr, currentPc := addOffset s.currentPc (rangeCount * 8 + 3) }
    else return .fail

/-- `HandleOpRange`. -/
def handleOpRangeBytes (s : ExecState) : Option (Effect ExecState) := do
  if e.isEOF s.currentPtr then return .fail
  else
    let (currentChar, ptr) ← e.getChar s.currentPtr e.input.length
    let currentCharNext := if e.isIgnoreCase then getcurrentCharNext e.icu currentChar else currentChar
    let rangeCount ← getU16 e.program.byteCode (s.currentPc + 1)
    let isFound ← e.isFoundOpRangeBytes s.currentPc currentChar rangeCount
    let isFound ← if isFound then some true
      else e.isFoundOpRangeBytes s.currentPc currentCharNext rangeCount
    if isFound then
      return .next { s with currentPtr := ptr, currentPc := addOffset s.currentPc (rangeCount * 4 + 3) }
    else return .fail

end Executor

/-! ## The search in a list of ranges -/

/-- The ranges ascend and are disjoint. -/
structure Ascends (set : RangeSet) : Prop where
  proper : set.Proper
  apart : set.Pairwise fun a b => a.second < b.first

theorem Ascends.take (ascends : Ascends set) (n : Nat) : Ascends (set.take n) :=
  ⟨fun r mem => ascends.proper r (List.mem_of_mem_take mem), ascends.apart.sublist (List.take_sublist n set)⟩

theorem Ascends.second_lt (ascends : Ascends set) {i j : Nat} {a b : CharRange} (less : i < j)
    (readA : set[i]? = some a) (readB : set[j]? = some b) : a.second < b.first := by
  obtain ⟨insideA, rfl⟩ := List.getElem?_eq_some_iff.mp readA
  obtain ⟨insideB, rfl⟩ := List.getElem?_eq_some_iff.mp readB
  exact List.pairwise_iff_getElem.mp ascends.apart i j insideA insideB less

theorem Ascends.first_le (ascends : Ascends set) {i : Nat} {a : CharRange} (read : set[i]? = some a) :
    a.first ≤ a.second :=
  ascends.proper a (List.mem_of_getElem? read)

/-- One of the ranges from `lower` on and before `upper` holds the character. -/
def HeldBetween (set : RangeSet) (c lower upper : Nat) : Prop :=
  ∃ i r, lower ≤ i ∧ i < upper ∧ set[i]? = some r ∧ r.first ≤ c ∧ c ≤ r.second

theorem findRange_iff (ascends : Ascends set) (fuel : Nat) : ∀ idxMin idxEnd,
    idxEnd ≤ set.length → idxEnd - idxMin ≤ fuel →
      (Executor.findRange set c fuel idxMin idxEnd = true ↔ HeldBetween set c idxMin idxEnd) := by
  induction fuel with
  | zero =>
    intro idxMin idxEnd inside none'
    refine ⟨fun found => by simp [Executor.findRange] at found, ?_⟩
    rintro ⟨i, r, lower, upper, -⟩
    omega
  | succ fuel ih =>
    intro idxMin idxEnd inside few
    rw [Executor.findRange]
    split_ifs with more
    · have place : (idxMin + (idxEnd - 1)) / 2 < set.length := by omega
      obtain ⟨range, read⟩ : ∃ range, set[(idxMin + (idxEnd - 1)) / 2]? = some range :=
        ⟨_, List.getElem?_eq_getElem place⟩
      have proper := ascends.first_le read
      simp only [read]
      split_ifs with below above
      · rw [ih _ _ (by omega) (by omega)]
        constructor
        · rintro ⟨i, r, lower, upper, held⟩
          exact ⟨i, r, lower, by omega, held⟩
        · rintro ⟨i, r, lower, upper, there, first, second⟩
          refine ⟨i, r, lower, ?_, there, first, second⟩
          -- a range from the middle on begins behind the character
          by_contra behind
          rcases Nat.eq_or_lt_of_le (Nat.le_of_not_lt behind) with same | later
          · rw [← same, read] at there
            obtain rfl := Option.some.inj there
            omega
          · have := ascends.second_lt later read there
            omega
      · rw [ih _ _ (by omega) (by omega)]
        constructor
        · rintro ⟨i, r, lower, upper, held⟩
          exact ⟨i, r, by omega, upper, held⟩
        · rintro ⟨i, r, lower, upper, there, first, second⟩
          refine ⟨i, r, ?_, upper, there, first, second⟩
          by_contra ahead
          rcases Nat.eq_or_lt_of_le (Nat.le_of_lt_succ (Nat.lt_of_not_le ahead)) with same | earlier
          · rw [same, read] at there
            obtain rfl := Option.some.inj there
            omega
          · have := ascends.second_lt earlier there read
            have := ascends.first_le there
            omega
      · exact iff_of_true rfl ⟨_, range, by omega, by omega, read, by omega, by omega⟩
    · refine ⟨fun found => absurd found nofun, ?_⟩
      rintro ⟨i, r, lower, upper, -⟩
      omega

theorem isContain_iff_held : set.isContain c = true ↔ HeldBetween set c 0 set.length := by
  rw [RangeSet.isContain_iff]
  constructor
  · rintro ⟨r, mem, first, second⟩
    obtain ⟨i, inside, rfl⟩ := List.mem_iff_getElem.mp mem
    exact ⟨i, _, Nat.zero_le i, inside, List.getElem?_eq_getElem inside, first, second⟩
  · rintro ⟨i, r, -, -, read, first, second⟩
    exact ⟨r, List.mem_of_getElem? read, first, second⟩

/-- The search finds what the set contains. -/
theorem isFoundOpRange_eq (ascends : Ascends set) : Executor.isFoundOpRange set c = set.isContain c := by
  rw [Executor.isFoundOpRange]
  cases last : set.getLast? with
  | none =>
    rw [List.getLast?_eq_none_iff.mp last]
    rfl
  | some range =>
    have search := findRange_iff (c := c) ascends set.length 0 set.length (Nat.le_refl _) (Nat.sub_le _ _)
    rw [Bool.eq_iff_iff, Bool.and_eq_true, decide_eq_true_eq, search, isContain_iff_held]
    refine ⟨And.right, fun held => ⟨?_, held⟩⟩
    -- the last range ends where no other range goes beyond
    obtain ⟨i, r, -, inside, read, -, second⟩ := held
    rw [List.getLast?_eq_getElem?] at last
    rcases Nat.eq_or_lt_of_le (show i ≤ set.length - 1 by omega) with same | earlier
    · rw [same, last] at read
      obtain rfl := Option.some.inj read
      exact second
    · have := ascends.second_lt earlier read last
      have := ascends.first_le last
      omega

/-! ## The search in the bytes -/

section

variable {get : Nat → Option Nat} {width pc : Nat}

/-- The ends of the ranges are where the search reads them. -/
structure HoldsRanges (get : Nat → Option Nat) (width pc : Nat) (set : RangeSet) : Prop where
  low : ∀ (i : Nat) r, set[i]? = some r → get (lowAddress width pc i) = some r.first
  high : ∀ (i : Nat) r, set[i]? = some r → get (highAddress width pc i) = some r.second
  /-- What is read where the last range of an empty set would be. -/
  outside : set = [] → ∃ high, get (highAddress width pc (-1)) = some high

theorem iter_searchRound (holds : HoldsRanges get width pc set) (fuel : Nat) : ∀ idxMin idxEnd : Nat,
    idxEnd ≤ set.length → idxEnd - idxMin ≤ fuel →
      iter (searchRound get width pc c) (fuel + 1) (idxMin, (idxEnd : Int) - 1) =
        some (some (Executor.findRange set c fuel idxMin idxEnd)) := by
  induction fuel with
  | zero =>
    intro idxMin idxEnd inside none'
    refine iter_inr 0 ?_
    rw [searchRound, if_neg (show ¬(idxMin : Int) ≤ idxEnd - 1 by omega)]
    rfl
  | succ fuel ih =>
    intro idxMin idxEnd inside few
    rw [Executor.findRange]
    by_cases more : idxMin < idxEnd
    · obtain ⟨mid, is⟩ : ∃ mid, mid = (idxMin + (idxEnd - 1)) / 2 := ⟨_, rfl⟩
      have place : mid < set.length := by omega
      obtain ⟨range, read⟩ : ∃ range, set[mid]? = some range := ⟨_, List.getElem?_eq_getElem place⟩
      have idx : ((idxMin : Int) + (idxEnd - 1)) / 2 = mid := by omega
      have round : searchRound get width pc c (idxMin, (idxEnd : Int) - 1) =
          if c < range.first then .inl (idxMin, (mid : Int) - 1)
          else if range.second < c then .inl (((mid + 1 : Nat) : Int), (idxEnd : Int) - 1)
          else .inr (some true) := by
        rw [searchRound, if_pos (show (idxMin : Int) ≤ idxEnd - 1 by omega)]
        simp only [idx, holds.low _ _ read, holds.high _ _ read, Int.natCast_add, Int.natCast_one]
      rw [if_pos more]
      simp only [← is, read]
      split_ifs at round ⊢ with below above
      · rw [iter_inl _ round]
        exact ih idxMin mid (by omega) (by omega)
      · rw [iter_inl _ round]
        exact ih (mid + 1) idxEnd (by omega) (by omega)
      · exact iter_inr _ round
    · rw [if_neg more]
      refine iter_inr _ ?_
      rw [searchRound, if_neg (show ¬(idxMin : Int) ≤ idxEnd - 1 by omega)]

theorem searchRanges_eq (holds : HoldsRanges get width pc set) :
    searchRanges get width pc c set.length = some (Executor.isFoundOpRange set c) := by
  have search := iter_searchRound (c := c) holds set.length 0 set.length (Nat.le_refl _) (Nat.sub_le _ _)
  rw [searchRanges, Executor.isFoundOpRange]
  cases last : set.getLast? with
  | none =>
    have empty := List.getLast?_eq_none_iff.mp last
    obtain ⟨high, read⟩ := holds.outside empty
    subst empty
    have search : iter (searchRound get width pc c) 1 (0, -1) = some (some false) := search
    simp [read, search]
  | some range =>
    have some' : 0 < set.length := by
      cases set with
      | nil => cases last
      | cons r set => exact Nat.succ_pos _
    rw [List.getLast?_eq_getElem?] at last
    have read := holds.high _ _ last
    rw [show ((set.length - 1 : Nat) : Int) = set.length - 1 by omega] at read
    have search : iter (searchRound get width pc c) (set.length + 1) (0, (set.length : Int) - 1) =
      some (some (Executor.findRange set c set.length 0 set.length)) := search
    simp only [read, search, Option.bind_eq_bind, Option.bind_some, Option.join_some]
    split_ifs with le
    · simp [le]
    · simp [le]

end


/-! ## What `InsertOpCode` stores -/

/-- How the ends of a range are stored: `width` bytes for numbers below `limit`. -/
structure EndFormat (emit : Nat → List UInt8) (get : List UInt8 → Nat → Option Nat) (width limit : Nat) :
    Prop where
  length : ∀ n, (emit n).length = width
  reads : ∀ n, n < limit → ∀ pre rest, get (pre ++ (emit n ++ rest)) pre.length = some n

theorem getU16_emitted (n : Nat) (pre rest : List UInt8) :
    getU16 (pre ++ (u16 n ++ rest)) pre.length = some (n % 2 ^ 16) := by
  have first := getU8_append pre (u16 n ++ rest) 0
  have second := getU8_append pre (u16 n ++ rest) 1
  rw [Nat.add_zero] at first
  rw [getU16, first, second]
  simp [getU8, u16]
  omega

theorem exists_getU16 {buf : List UInt8} {i : Nat} (inside : i + 1 < buf.length) :
    ∃ n, getU16 buf i = some n := by
  rw [getU16, getU8, getU8, List.getElem?_eq_getElem inside, List.getElem?_eq_getElem (Nat.lt_of_succ_lt inside)]
  exact ⟨_, rfl⟩

theorem exists_getU32 {buf : List UInt8} {i : Nat} (inside : i + 3 < buf.length) :
    ∃ n, getU32 buf i = some n := by
  obtain ⟨low, readLow⟩ := exists_getU16 (show i + 1 < buf.length by omega)
  obtain ⟨high, readHigh⟩ := exists_getU16 (show i + 2 + 1 < buf.length by omega)
  rw [getU32, readLow, readHigh]
  exact ⟨_, rfl⟩

theorem u16_format : EndFormat u16 getU16 2 (2 ^ 16) where
  length _ := rfl
  reads n small pre rest := by rw [getU16_emitted, Nat.mod_eq_of_lt small]

theorem u32_format : EndFormat u32 getU32 4 (2 ^ 32) where
  length _ := rfl
  reads n small pre rest := by
    have parts : u32 n = u16 n ++ u16 (n / 2 ^ 16) := by
      simp [u32, u16, Nat.div_div_eq_div_mul]
    have same : pre ++ (u32 n ++ rest) = pre ++ (u16 n ++ (u16 (n / 2 ^ 16) ++ rest)) := by
      rw [parts, List.append_assoc]
    have low : getU16 (pre ++ (u32 n ++ rest)) pre.length = some (n % 2 ^ 16) := by
      rw [same]
      exact getU16_emitted n pre _
    have high : getU16 (pre ++ (u32 n ++ rest)) (pre.length + 2) = some (n / 2 ^ 16 % 2 ^ 16) := by
      have place : pre.length + 2 = (pre ++ u16 n).length := (List.length_append).symm ▸ rfl
      rw [same, ← List.append_assoc, place]
      exact getU16_emitted (n / 2 ^ 16) (pre ++ u16 n) rest
    rw [getU32, low, high]
    simp
    omega

section

variable {emit : Nat → List UInt8} {get : List UInt8 → Nat → Option Nat} {width limit : Nat}

/-- The ends of the ranges, one range after the other. -/
def endBytes (emit : Nat → List UInt8) (set : RangeSet) : List UInt8 :=
  set.flatMap fun range => emit range.first ++ emit range.second

theorem length_endBytes (format : EndFormat emit get width limit) (set : RangeSet) :
    (endBytes emit set).length = set.length * (2 * width) := by
  induction set with
  | nil => simp [endBytes]
  | cons r set ih =>
    rw [endBytes, List.flatMap_cons, List.length_append, List.length_append, format.length, format.length,
      List.length_cons, Nat.succ_mul, ← ih, endBytes]
    omega

/-- The ends of the range `i` behind the ranges before it. -/
theorem get_endBytes (format : EndFormat emit get width limit) {i : Nat} {r : CharRange}
    (read : set[i]? = some r) (first : r.first < limit) (second : r.second < limit)
    (pre rest : List UInt8) :
    get (pre ++ (endBytes emit set ++ rest)) (pre.length + i * (2 * width)) = some r.first ∧
      get (pre ++ (endBytes emit set ++ rest)) (pre.length + i * (2 * width) + width) = some r.second := by
  obtain ⟨inside, is⟩ := List.getElem?_eq_some_iff.mp read
  have parts : set = set.take i ++ r :: set.drop (i + 1) := by
    rw [← is, List.getElem_cons_drop, List.take_append_drop]
  have before : (endBytes emit (set.take i)).length = i * (2 * width) := by
    rw [length_endBytes format, List.length_take, Nat.min_eq_left (Nat.le_of_lt inside)]
  have split : pre ++ (endBytes emit set ++ rest) = pre ++ endBytes emit (set.take i) ++
      (emit r.first ++ (emit r.second ++ (endBytes emit (set.drop (i + 1)) ++ rest))) := by
    conv => lhs; rw [parts]
    simp [endBytes]
  rw [split, ← before, ← List.length_append]
  refine ⟨format.reads _ first _ _, ?_⟩
  have place : (pre ++ endBytes emit (set.take i)).length + width =
      (pre ++ endBytes emit (set.take i) ++ emit r.first).length := by
    rw [← format.length r.first, ← List.length_append]
  rw [place, ← List.append_assoc]
  exact format.reads _ second _ _

end

/-! ## Running an emitted class -/

/-- The two instructions for a class. -/
inductive ClassOpCode where
  | range
  | range32

namespace ClassOpCode

def instr : ClassOpCode → RangeSet → Instr
  | range => .range
  | range32 => .range32

/-- The numbers that an end of a range can be. -/
def limit : ClassOpCode → Nat
  | range => 2 ^ 16
  | range32 => 2 ^ 32

/-- What the handler of the instruction does. -/
def handler : ClassOpCode → Executor → ExecState → Option (Effect ExecState)
  | range => Executor.handleOpRangeBytes
  | range32 => Executor.handleOpRange32Bytes

/-- The bytes of an end. -/
def width : ClassOpCode → Nat
  | range => 2
  | range32 => 4

def emitEnd : ClassOpCode → Nat → List UInt8
  | range => u16
  | range32 => u32

def getEnd : ClassOpCode → List UInt8 → Nat → Option Nat
  | range => getU16
  | range32 => getU32

def code : ClassOpCode → Nat
  | range => 24
  | range32 => 28

variable (op : ClassOpCode)

theorem format : EndFormat op.emitEnd op.getEnd op.width op.limit := by
  cases op with
  | range => exact u16_format
  | range32 => exact u32_format

theorem emit_eq (set : RangeSet) :
    (op.instr set).emit = u8 op.code ++ (u16 set.length ++ endBytes op.emitEnd set) := by
  cases op <;> rfl

theorem length_emit (set : RangeSet) : (op.instr set).emit.length = 3 + set.length * (2 * op.width) := by
  rw [emit_eq, List.length_append, List.length_append, length_endBytes op.format,
    show (u8 op.code).length = 1 from rfl, show (u16 set.length).length = 2 from rfl]
  omega

end ClassOpCode

/-- The bytecode has the instruction at `pc`, behind the header. -/
structure EmittedAt (e : Executor) (instr : Instr) (pc : Nat) : Prop where
  there : ∃ pre rest, e.program.byteCode = pre ++ (instr.emit ++ rest) ∧ pre.length = pc
  header : opStartOffset ≤ pc
  /-- `GetDynChunkfSize`, a `uint32_t`. -/
  small : e.program.byteCode.length < 2 ^ 32

section

variable {e : Executor} {op : ClassOpCode} {s : ExecState}

theorem EmittedAt.count (emitted : EmittedAt e (op.instr set) s.currentPc) :
    getU16 e.program.byteCode (s.currentPc + 1) = some (set.length % 2 ^ 16) := by
  obtain ⟨pre, rest, is, place⟩ := emitted.there
  have behind : s.currentPc + 1 = (pre ++ u8 op.code).length := by rw [← place, List.length_append]; rfl
  rw [is, op.emit_eq, behind, List.append_assoc, List.append_assoc, ← List.append_assoc]
  exact getU16_emitted set.length (pre ++ u8 op.code) _

theorem address_of_lt {pc n : Nat} {offset : Int} (is : (pc : Int) + offset = n) (small : n < 2 ^ 64) :
    address pc offset = n := by
  rw [address, is]
  omega

/-- The search reads the ranges up to the stored number of them. -/
theorem EmittedAt.holds (emitted : EmittedAt e (op.instr set) s.currentPc)
    (proper : set.Proper) (fits : ∀ r ∈ set, r.second < op.limit) :
    HoldsRanges (op.getEnd e.program.byteCode) op.width s.currentPc (set.take (set.length % 2 ^ 16)) := by
  obtain ⟨pre, rest, is, place⟩ := emitted.there
  have small := emitted.small
  have long : pre.length + (3 + set.length * (2 * op.width)) ≤ e.program.byteCode.length := by
    rw [is, List.length_append, List.length_append, op.length_emit]
    omega
  have ends (i : Nat) (r : CharRange) (read : (set.take (set.length % 2 ^ 16))[i]? = some r) :
      i < set.length ∧ op.getEnd e.program.byteCode (s.currentPc + 3 + i * (2 * op.width)) = some r.first ∧
        op.getEnd e.program.byteCode (s.currentPc + 3 + i * (2 * op.width) + op.width) = some r.second := by
    have read : set[i]? = some r := by
      rw [List.getElem?_take] at read
      split_ifs at read
      exact read
    have mem := List.mem_of_getElem? read
    have second := fits r mem
    have found := get_endBytes op.format read (Nat.lt_of_le_of_lt (proper r mem) second) second
      (pre ++ u8 op.code ++ u16 set.length) rest
    have behind : (pre ++ u8 op.code ++ u16 set.length).length = s.currentPc + 3 := by
      rw [List.length_append, List.length_append, place]
      rfl
    rw [behind] at found
    rw [is, op.emit_eq]
    simp only [List.append_assoc] at found ⊢
    exact ⟨(List.getElem?_eq_some_iff.mp read).1, found⟩
  have inside (i : Nat) (below : i < set.length) :
      s.currentPc + 3 + i * (2 * op.width) + op.width < 2 ^ 64 := by
    have := Nat.mul_le_mul_right (2 * op.width) (Nat.succ_le_of_lt below)
    rw [Nat.succ_mul] at this
    omega
  refine ⟨fun i r read => ?_, fun i r read => ?_, fun empty => ?_⟩
  · obtain ⟨below, low, -⟩ := ends i r read
    have := inside i below
    rw [lowAddress, address_of_lt (n := s.currentPc + 3 + i * (2 * op.width)) (by push_cast; omega) (by omega)]
    exact low
  · obtain ⟨below, -, high⟩ := ends i r read
    rw [highAddress, address_of_lt (n := s.currentPc + 3 + i * (2 * op.width) + op.width)
      (by push_cast; omega) (inside i below)]
    exact high
  · have few : s.currentPc + 2 < e.program.byteCode.length := by omega
    have header : 16 ≤ s.currentPc := emitted.header
    cases op with
    | range =>
      -- the number of ranges itself
      rw [highAddress, address_of_lt (n := s.currentPc + 1) (by simp [ClassOpCode.width]) (by omega)]
      exact exists_getU16 (by omega)
    | range32 =>
      -- the byte before the instruction and the three behind
      rw [highAddress, address_of_lt (n := s.currentPc - 1) (by simp [ClassOpCode.width]; omega) (by omega)]
      exact exists_getU32 (by omega)


/-- The handler does on the bytes what `handle` does with the ranges that are stored. -/
theorem handler_eq_handle (emitted : EmittedAt e (op.instr set) s.currentPc) (proper : set.Proper)
    (fits : ∀ r ∈ set, r.second < op.limit) :
    op.handler e s = e.handle (op.instr (set.take (set.length % 2 ^ 16))) s := by
  have count := emitted.count
  have holds := emitted.holds proper fits
  obtain ⟨stored, is⟩ : ∃ stored, stored = set.take (set.length % 2 ^ 16) := ⟨_, rfl⟩
  have length : set.length % 2 ^ 16 = stored.length := by
    rw [is, List.length_take, Nat.min_eq_left (Nat.mod_le _ _)]
  rw [length] at count
  rw [← is] at holds ⊢
  cases op with
  | range =>
    have search (nowChar : Nat) : e.isFoundOpRangeBytes s.currentPc nowChar stored.length =
      some (Executor.isFoundOpRange stored nowChar) := searchRanges_eq holds
    have advanced : stored.length * 4 + 3 = 0 + (Instr.range stored).size := by
      simp only [Instr.size]
      omega
    show e.handleOpRangeBytes s = e.handleOpRange (.range stored) stored s
    rw [Executor.handleOpRangeBytes, Executor.handleOpRange]
    by_cases eof : e.isEOF s.currentPtr = true
    · rw [if_pos eof, if_pos eof]
    rw [if_neg eof, if_neg eof]
    cases e.getChar s.currentPtr e.input.length with
    | none => rfl
    | some read =>
      simp only [Option.bind_eq_bind, Option.bind_some, count, search, Executor.advance, ← advanced]
      cases Executor.isFoundOpRange stored read.1 <;> rfl
  | range32 =>
    have search (nowChar : Nat) : searchRanges (getU32 e.program.byteCode) 4 s.currentPc nowChar
      stored.length = some (Executor.isFoundOpRange stored nowChar) := searchRanges_eq holds
    have advanced : stored.length * 8 + 3 = 0 + (Instr.range32 stored).size := by
      simp only [Instr.size]
      omega
    show e.handleOpRange32Bytes s = e.handleOpRange32 (.range32 stored) stored s
    rw [Executor.handleOpRange32Bytes, Executor.handleOpRange32]
    by_cases eof : e.isEOF s.currentPtr = true
    · rw [if_pos eof, if_pos eof]
    rw [if_neg eof, if_neg eof]
    cases e.getChar s.currentPtr e.input.length with
    | none => rfl
    | some read =>
      simp only [Option.bind_eq_bind, Option.bind_some, count, search, Executor.advance, ← advanced]

theorem not_eof_of_getChar {ptr : Nat} {read : Nat × Nat} (got : e.getChar ptr e.input.length = some read) :
    e.isEOF ptr = false := by
  rw [Executor.isEOF, decide_eq_false_iff_not, Nat.not_le]
  by_contra outside
  rw [Executor.getChar, Executor.unit, List.getElem?_eq_none (Nat.le_of_not_lt outside)] at got
  cases got

/-- Without the ignore-case flag the handler accepts what the stored ranges contain. -/
theorem handler_eq (emitted : EmittedAt e (op.instr set) s.currentPc) (ascends : Ascends set)
    (fits : ∀ r ∈ set, r.second < op.limit) (plain : e.isIgnoreCase = false) {ptr : Nat}
    (got : e.getChar s.currentPtr e.input.length = some (c, ptr)) :
    op.handler e s = some
      (if RangeSet.isContain (set.take (set.length % 2 ^ 16)) c = true then
        .next { s with
          currentPtr := ptr
          currentPc := s.currentPc + (3 + set.length % 2 ^ 16 * (2 * op.width)) }
      else .fail) := by
  have open' := not_eof_of_getChar got
  have search := isFoundOpRange_eq (c := c) (ascends.take (set.length % 2 ^ 16))
  have length : (set.take (set.length % 2 ^ 16)).length = set.length % 2 ^ 16 := by
    rw [List.length_take, Nat.min_eq_left (Nat.mod_le _ _)]
  have small := emitted.small
  have long : s.currentPc + (3 + set.length * (2 * op.width)) ≤ e.program.byteCode.length := by
    obtain ⟨pre, rest, is, place⟩ := emitted.there
    rw [is, List.length_append, List.length_append, op.length_emit]
    omega
  have short : set.length % 2 ^ 16 * (2 * op.width) ≤ set.length * (2 * op.width) :=
    Nat.mul_le_mul_right _ (Nat.mod_le _ _)
  have advanced : Executor.addOffset s.currentPc (0 + (op.instr (set.take (set.length % 2 ^ 16))).size) =
      s.currentPc + (3 + set.length % 2 ^ 16 * (2 * op.width)) := by
    rw [Executor.addOffset, Nat.mod_eq_of_lt]
    · cases op <;> simp only [ClassOpCode.instr, ClassOpCode.width, Instr.size, length] <;> omega
    · cases op <;> simp only [ClassOpCode.instr, ClassOpCode.width, Instr.size, length] at short long ⊢ <;> omega
  rw [handler_eq_handle emitted ascends.proper fits, ← advanced]
  cases op with
  | range =>
    show e.handleOpRange _ _ s = _
    rw [Executor.handleOpRange]
    simp only [open', got, plain, search, Option.bind_eq_bind, Option.bind_some, Bool.or_self,
      Bool.false_eq_true, if_false]
    split_ifs <;> rfl
  | range32 =>
    show e.handleOpRange32 _ _ s = _
    rw [Executor.handleOpRange32]
    simp only [open', got, plain, search, Option.bind_eq_bind, Option.bind_some, Bool.false_eq_true,
      if_false]
    split_ifs <;> rfl

/-- The instruction succeeds on the character exactly if the set contains it, and goes on behind its
    bytes. -/
def ExecutesClass (op : ClassOpCode) (set : RangeSet) (e : Executor) (s : ExecState) (c ptr : Nat) : Prop :=
  op.handler e s = some
    (if set.isContain c = true then
      .next { s with currentPtr := ptr, currentPc := s.currentPc + (op.instr set).emit.length }
    else .fail)

/-- An emitted class is executed as the set exactly if its number of ranges has 16 bits, or the set does not
    contain the character. -/
theorem executesClass_iff (op : ClassOpCode) (set : RangeSet) (e : Executor) (s : ExecState) (c ptr : Nat)
    (ascends : Ascends set) (fits : ∀ r ∈ set, r.second < op.limit)
    (emitted : EmittedAt e (op.instr set) s.currentPc) (plain : e.isIgnoreCase = false)
    (got : e.getChar s.currentPtr e.input.length = some (c, ptr)) :
    ExecutesClass op set e s c ptr ↔ set.length < 2 ^ 16 ∨ set.isContain c = false := by
  rw [ExecutesClass, handler_eq emitted ascends fits plain got, op.length_emit]
  constructor
  · intro executes
    by_contra not
    obtain ⟨long, contains⟩ := not_or.mp not
    rw [Bool.not_eq_false] at contains
    rw [if_pos contains] at executes
    split_ifs at executes with held
    · -- the rest of the ranges is not skipped
      simp only [Option.some.injEq, Effect.next.injEq, ExecState.mk.injEq, and_true] at executes
      have less := Nat.mod_lt set.length (show 0 < 2 ^ 16 by decide)
      cases op <;> simp only [ClassOpCode.width] at executes <;> omega
    · cases executes
  · rintro (few | absent)
    · rw [Nat.mod_eq_of_lt few, List.take_of_length_le (Nat.le_refl _)]
    · have absent' : RangeSet.isContain (set.take (set.length % 2 ^ 16)) c = false := by
        rw [Bool.eq_false_iff, Ne, RangeSet.isContain_iff] at absent ⊢
        rintro ⟨r, mem, held⟩
        exact absent ⟨r, List.mem_of_mem_take mem, held⟩
      rw [absent, absent']
      rfl

end

/-- An executor whose bytecode is a class behind an empty header. -/
def classExecutor (op : ClassOpCode) (set : RangeSet) (input : List UInt16) : Executor where
  icu := ⟨id, id⟩
  program := ⟨List.replicate 16 0 ++ (op.instr set).emit, 16 + (op.instr set).emit.length, 1, 0, 0⟩
  input := input
  isWideChar := false

theorem emittedAt_classExecutor (op : ClassOpCode) (set : RangeSet) (input : List UInt16)
    (few : set.length < 2 ^ 28) :
    EmittedAt (classExecutor op set input) (op.instr set) opStartOffset := by
  refine ⟨⟨List.replicate 16 0, [], ?_, List.length_replicate⟩, Nat.le_refl _, ?_⟩
  · rw [List.append_nil]
    rfl
  · show (List.replicate 16 0 ++ (op.instr set).emit).length < 2 ^ 32
    rw [List.length_append, op.length_emit, List.length_replicate]
    cases op <;> simp only [ClassOpCode.width] <;> omega

theorem isIgnoreCase_classExecutor (op : ClassOpCode) (set : RangeSet) (input : List UInt16) :
    (classExecutor op set input).isIgnoreCase = false := Nat.zero_testBit flagIgnoreCase

theorem executesClass_iff_letters :
    let set : RangeSet := [⟨97, 99⟩, ⟨120, 122⟩]
    let e := classExecutor .range set [121]
    let s := e.start 0
    (Ascends set ∧ (∀ r ∈ set, r.second < ClassOpCode.range.limit) ∧
      EmittedAt e (ClassOpCode.range.instr set) s.currentPc ∧ e.isIgnoreCase = false ∧
      e.getChar s.currentPtr e.input.length = some (121, 1)) ∧
      (ExecutesClass .range set e s 121 1 ↔ set.length < 2 ^ 16 ∨ set.isContain 121 = false) := by
  intro set e s
  have ascends : Ascends set := by
    refine ⟨?_, ?_⟩
    · simp [RangeSet.Proper, set]
    · simp [set]
  have fits : ∀ r ∈ set, r.second < ClassOpCode.range.limit := by simp [set, ClassOpCode.limit]
  have emitted : EmittedAt e (ClassOpCode.range.instr set) s.currentPc :=
    emittedAt_classExecutor .range set [121] (by decide)
  have plain : e.isIgnoreCase = false := isIgnoreCase_classExecutor .range set [121]
  exact ⟨⟨ascends, fits, emitted, plain, rfl⟩,
    executesClass_iff .range set e s 121 1 ascends fits emitted plain rfl⟩

/-- The first 65536 even numbers, one range each. -/
def everyOther : RangeSet := (List.range 65536).map fun i => ⟨2 * i, 2 * i⟩

theorem length_everyOther : everyOther.length = 65536 := by
  rw [everyOther, List.length_map, List.length_range]

theorem ascends_everyOther : Ascends everyOther := by
  refine ⟨fun r mem => ?_, ?_⟩
  · obtain ⟨i, -, rfl⟩ := List.mem_map.mp mem
    exact Nat.le_refl _
  · refine List.pairwise_map.mpr (List.pairwise_lt_range.imp fun {i j} less => ?_)
    show 2 * i < 2 * j
    omega

/-- The number of ranges is stored as zero, so that nothing is found in the class. -/
theorem executesClass_misses_zero :
    let e := classExecutor .range32 everyOther [0]
    let s := e.start 0
    Ascends everyOther ∧ (∀ r ∈ everyOther, r.second < ClassOpCode.range32.limit) ∧
      EmittedAt e (ClassOpCode.range32.instr everyOther) s.currentPc ∧ e.isIgnoreCase = false ∧
      e.getChar s.currentPtr e.input.length = some (0, 1) ∧ everyOther.isContain 0 = true ∧
      ClassOpCode.range32.handler e s = some .fail ∧ ¬ExecutesClass .range32 everyOther e s 0 1 := by
  intro e s
  have fits : ∀ r ∈ everyOther, r.second < ClassOpCode.range32.limit := by
    intro r mem
    obtain ⟨i, below, rfl⟩ := List.mem_map.mp mem
    have below := List.mem_range.mp below
    show 2 * i < 2 ^ 32
    omega
  have emitted : EmittedAt e (ClassOpCode.range32.instr everyOther) s.currentPc :=
    emittedAt_classExecutor .range32 everyOther [0] (by rw [length_everyOther]; decide)
  have contains : everyOther.isContain 0 = true := by
    refine (RangeSet.isContain_iff _ _).mpr ⟨⟨0, 0⟩, ?_, Nat.le_refl 0, Nat.le_refl 0⟩
    exact List.mem_map.mpr ⟨0, List.mem_range.mpr (by decide), rfl⟩
  have plain : e.isIgnoreCase = false := isIgnoreCase_classExecutor .range32 everyOther [0]
  have got : e.getChar s.currentPtr e.input.length = some (0, 1) := rfl
  have failed : ClassOpCode.range32.handler e s = some .fail := by
    rw [handler_eq emitted ascends_everyOther fits plain got, length_everyOther]
    rfl
  refine ⟨ascends_everyOther, fits, emitted, plain, got, contains, failed, fun executes => ?_⟩
  rw [ExecutesClass, failed, if_pos contains] at executes
  cases executes

end RegExp

end ArkRuntime
