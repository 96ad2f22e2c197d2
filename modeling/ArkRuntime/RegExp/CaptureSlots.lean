import Mathlib.Data.List.Perm.Subperm
import ArkRuntime.RegExp.Reading

/-!
# The numbers of groups in the bytecode

The instructions that name a group have one byte for its number, `capture & 0xff`, and the parser does
not bound the number of groups. The number of a group is its place among the groups of the pattern. For a
reference by name that stands before its group the parser takes the number from a search of the pattern
(`ParseCaptureCount`), which skips the character behind each name. `captures_carried_iff` says for which
patterns the bytes name the groups that they were emitted for.
-/

namespace ArkRuntime

namespace RegExp

namespace Instr

/-- The groups that an instruction names. -/
def captures : Instr → List Nat
  | saveStart capture | saveEnd capture | backreference capture | backwardBackreference capture => [capture]
  | saveReset first last => [first, last]
  | _ => []

/-- The instruction that the executor reads where this one was emitted, if it names groups. -/
def stored : Instr → Instr
  | saveStart capture => saveStart (capture &&& 0xff)
  | saveEnd capture => saveEnd (capture &&& 0xff)
  | backreference capture => backreference (capture &&& 0xff)
  | backwardBackreference capture => backwardBackreference (capture &&& 0xff)
  | saveReset first last => saveReset (first &&& 0xff) (last &&& 0xff)
  | instr => instr

theorem length_emitRanges (emit : Nat → List UInt8) (width : Nat) (even : ∀ n, (emit n).length = width)
    (rangeSet : RangeSet) : (emitRanges emit rangeSet).length = 2 + 2 * width * rangeSet.length := by
  have ends : (rangeSet.flatMap fun range => emit range.first ++ emit range.second).length =
      2 * width * rangeSet.length := by
    induction rangeSet with
    | nil => rfl
    | cons range rest ih =>
      rw [List.flatMap_cons, List.length_append, ih, List.length_append, even, even, List.length_cons,
        Nat.mul_succ]
      omega
  rw [emitRanges, List.length_append, ends]
  rfl

theorem length_emit (instr : Instr) : instr.emit.length = instr.size := by
  cases instr with
  | range rangeSet =>
    rw [emit, List.length_append, length_emitRanges u16 2 (fun _ => rfl)]
    simp only [u8, List.length_singleton, size]
    omega
  | range32 rangeSet =>
    rw [emit, List.length_append, length_emitRanges u32 4 (fun _ => rfl)]
    simp only [u8, List.length_singleton, size]
    omega
  | _ => rfl

theorem mod_and_byte (n : Nat) : n % 256 &&& 0xff = n &&& 0xff := by
  have mod (m : Nat) : m &&& 0xff = m % 2 ^ 8 := Nat.and_two_pow_sub_one_eq_mod m 8
  rw [mod, mod]
  exact Nat.mod_mod n _

theorem and_byte_eq_iff {n : Nat} : n &&& 0xff = n ↔ n ≤ 255 := by
  have mod : n &&& 0xff = n % 2 ^ 8 := Nat.and_two_pow_sub_one_eq_mod n 8
  rw [mod]
  omega

theorem captures_stored (instr : Instr) : instr.stored.captures = instr.captures.map (· &&& 0xff) := by
  cases instr <;> rfl

end Instr

theorem getU8_append (pre rest : List UInt8) (i : Nat) :
    getU8 (pre ++ rest) (pre.length + i) = getU8 rest i := by
  rw [getU8, getU8, List.getElem?_append_right (Nat.le_add_right _ _), Nat.add_sub_cancel_left]

/-- Reading an instruction that names groups. -/
theorem fetch_emit (instr : Instr) (names : instr.captures ≠ []) (pre rest : List UInt8) :
    fetch (pre ++ (instr.emit ++ rest)) pre.length = some instr.stored := by
  have byte (i : Nat) : getU8 (pre ++ (instr.emit ++ rest)) (pre.length + i) = getU8 (instr.emit ++ rest) i :=
    getU8_append pre _ i
  have first := byte 0
  rw [Nat.add_zero] at first
  cases instr <;> first
    | exact absurd rfl names
    | simp [fetch, first, byte, getU8, Instr.emit, u8, Instr.stored, Instr.mod_and_byte]

/-! ## What the instructions are for -/

/-- What an instruction that names groups is for. -/
inductive Mark where
  /-- The start or the end of a group. -/
  | own (n : Nat)
  /-- The groups of an atom, from the first to the last. -/
  | reset (first last : Nat)
  | decimal (n : Nat)
  /-- A reference by name, behind the groups `known`. -/
  | byName (known : List (List UInt8)) (name : List UInt8) (sought : Option Nat)

/-- The numbers that the parser emits. -/
def Mark.numbers : Mark → List Nat
  | own n => [n]
  | reset first last => [first, last]
  | decimal n => [n]
  | byName known name sought => [referenceNumber known name sought]

/-- The groups of a pattern that an instruction is for, by their places in the pattern. -/
def Mark.groups (pattern : Tree) : Mark → List Nat
  | own n => [n]
  | reset first last => [first, last]
  | decimal n => if n ≤ pattern.groups then [n] else []
  | byName _ name _ => (Pattern.findGroupName pattern.names name).toList

/-- The `SAVE_RESET` of a quantifier, if it has one. -/
def Suffix.marks (suffix : Suffix) (term : Tree) (s : Scope) : List Mark :=
  match suffix, term with
  | .bounds _ _ _, .group _ body =>
      if (term.scope s).isEmpty then []
      else [.reset (s.groupNames.length + 1) (s.groupNames.length + 1 + body.groups)]
  | _, _ => []

namespace Tree

/-- What the instructions of a tree that name groups are for, in the order of the code. A group has the
    place behind the groups that the scope has names of. -/
def marks : Tree → Bool → Scope → List Mark
  | leaf (.reference n), _, _ => [.decimal n]
  | leaf (.named name sought), _, s => [.byName s.groupNames name sought]
  | group name body, isBackward, s =>
      [.own (s.groupNames.length + 1)] ++ body.marks isBackward (s.enter name) ++
        [.own (s.groupNames.length + 1)]
  | plain body, isBackward, s => body.marks isBackward s
  | look behind _ body, isBackward, s => body.marks (direction behind isBackward) s
  | cons term suffix rest, isBackward, s =>
      let marks := suffix.marks term s ++ term.marks isBackward s
      let behind := rest.marks isBackward (suffix.scope (term.scope s))
      if isBackward then behind ++ marks else marks ++ behind
  | alt left right, isBackward, s => left.marks isBackward s ++ right.marks isBackward (left.scope s)
  | _, _, _ => []

/-- The numbers of the decimal references. -/
def decimals : Tree → List Nat
  | leaf (.reference n) => [n]
  | group _ body => body.decimals
  | plain body => body.decimals
  | look _ _ body => body.decimals
  | cons term _ rest => term.decimals ++ rest.decimals
  | alt left right => left.decimals ++ right.decimals
  | _ => []

/-- The references by name that stand before the group with the name, behind the groups `known`, with what
    the search of the pattern gives. -/
def forwards : Tree → List (List UInt8) → List (List UInt8 × Option Nat)
  | leaf (.named name sought), known => if name ∈ known then [] else [(name, sought)]
  | group name body, known => body.forwards (known ++ [name])
  | plain body, known => body.forwards known
  | look _ _ body, known => body.forwards known
  | cons term _ rest, known => term.forwards known ++ rest.forwards (known ++ term.names)
  | alt left right, known => left.forwards known ++ right.forwards (known ++ left.names)
  | _, _ => []

/-- The search for a name gives the group with the name, as far as a byte tells. -/
def Finds (pattern : Tree) (reference : List UInt8 × Option Nat) : Prop :=
  ∃ n, Pattern.findGroupName pattern.names reference.1 = some n ∧ reference.2.getD 0 &&& 0xff = n

/-- All numbers fit into their bytes, and the references are to groups that the pattern has. -/
structure NumbersFit (pattern : Tree) : Prop where
  groups : pattern.groups ≤ 255
  decimals : ∀ n ∈ pattern.decimals, n ≤ pattern.groups
  forwards : ∀ reference ∈ pattern.forwards [], pattern.Finds reference

end Tree

/-! ## The numbers in the code of a tree -/

/-- The numbers in the instructions that name groups. -/
def numbers (code : List Instr) : List (List Nat) := (code.map Instr.captures).filter (· ≠ [])

theorem numbers_append (code code' : List Instr) : numbers (code ++ code') = numbers code ++ numbers code' := by
  rw [numbers, List.map_append, List.filter_append]
  rfl

theorem numbers_silent {instr : Instr} (silent : instr.captures = []) (code : List Instr) :
    numbers (instr :: code) = numbers code := by
  rw [numbers, List.map_cons, silent]
  rfl

theorem numbers_if_silent {c : Prop} [Decidable c] {instr : Instr} (silent : instr.captures = []) :
    numbers (if c then [instr] else []) = [] := by
  split_ifs
  · exact numbers_silent silent []
  · rfl

theorem numbers_quantifierCode (first last min max : Nat) (isGreedy : Bool) (body : List Instr) :
    numbers (quantifierCode first last min max isGreedy body) =
      (if first ≠ 0 then [[first, last]] else []) ++ numbers body := by
  have split (offset : Nat) : (splitInstr isGreedy offset).captures = [] := by cases isGreedy <;> rfl
  have loop (offset : Nat) : (loopInstr isGreedy offset min max).captures = [] := by cases isGreedy <;> rfl
  have reset : numbers (if first ≠ 0 then [.saveReset first last] else []) =
      if first ≠ 0 then [[first, last]] else [] := by
    split_ifs <;> rfl
  rw [quantifierCode, numbers_silent rfl, numbers_append, numbers_append, loopCode, numbers_append,
    iterationCode, numbers_append, numbers_append, numbers_append, reset, numbers_if_silent (split _),
    numbers_if_silent rfl, numbers_if_silent rfl, numbers_silent (loop _), numbers_silent rfl]
  simp [numbers]

/-- The numbers of the groups agree with their places. -/
def Scope.Counted (s : Scope) : Prop := s.captureCount = s.groupNames.length + 1

theorem Scope.Counted.enter {s : Scope} (counted : s.Counted) (name : List UInt8) : (s.enter name).Counted := by
  rw [Counted, Scope.enter, List.length_append, List.length_singleton]
  exact congrArg (· + 1) counted

theorem Tree.counted_scope {s : Scope} (t : Tree) (counted : s.Counted) : (t.scope s).Counted := by
  rw [Scope.Counted, captureCount_scope, groupNames_scope, List.length_append, length_names, counted]
  exact Nat.add_right_comm _ _ _

theorem Suffix.counted_scope {s : Scope} (suffix : Suffix) (counted : s.Counted) :
    (suffix.scope s).Counted := by
  rw [Scope.Counted, captureCount_scope, groupNames_scope]
  exact counted

theorem Suffix.numbers_code (suffix : Suffix) (term : Tree) {s : Scope} (counted : s.Counted)
    (body : List Instr) :
    numbers (suffix.code (term.captureIndex s.captureCount) body (term.scope s)) =
      (suffix.marks term s).map Mark.numbers ++ numbers body := by
  cases suffix with
  | kept => rfl
  | once => rfl
  | bounds min max isGreedy =>
    cases empty : (term.scope s).isEmpty with
    | true => cases term <;> simp [Suffix.code, Suffix.marks, empty]
    | false =>
      rw [Suffix.code, if_neg (by simp [empty]), numbers_quantifierCode]
      cases term with
      | group name inner =>
        have last : ((Tree.group name inner).scope s).captureCount - 1 =
            s.groupNames.length + 1 + inner.groups := by
          rw [Tree.captureCount_scope, counted, Tree.groups]
          omega
        have first : (Tree.group name inner).captureIndex s.captureCount = s.groupNames.length + 1 := counted
        simp [Suffix.marks, empty, last, first, Mark.numbers]
      | _ => simp [Suffix.marks, Tree.captureIndex]

theorem CharTest.captures_instr (test : CharTest) : test.instr.captures = [] := by
  cases test with
  | char value =>
    rw [instr]
    split_ifs <;> rfl
  | _ => rfl

theorem numbers_referenceCode (capture : Nat) (isBackward : Bool) :
    numbers (referenceCode capture isBackward) = [[capture]] := by
  cases isBackward <;> rfl

theorem Leaf.numbers_code (l : Leaf) (isBackward : Bool) (s : Scope) :
    numbers (l.code isBackward s.groupNames) = ((Tree.leaf l).marks isBackward s).map Mark.numbers := by
  cases l with
  | assertion a => cases a <;> rfl
  | character test closed =>
    rw [code, numbers_append, numbers_append, numbers_silent test.captures_instr]
    cases isBackward <;> cases closed <;> rfl
  | nothing => rfl
  | reference capture => exact numbers_referenceCode capture isBackward
  | named name sought => exact numbers_referenceCode _ isBackward

/-- The code of a tree has the numbers of its marks, in their order. -/
theorem Tree.numbers_compile (t : Tree) (isBackward : Bool) {s : Scope} (counted : s.Counted) :
    numbers (t.compile isBackward s) = (t.marks isBackward s).map Mark.numbers := by
  induction t generalizing isBackward s with
  | leaf l => exact l.numbers_code isBackward s
  | void => rfl
  | nil => rfl
  | group name body ih =>
    have own (instr : Instr) (is : instr.captures = [s.captureCount]) :
        numbers [instr] = [[s.groupNames.length + 1]] := by
      rw [numbers, List.map_singleton, is, counted]
      rfl
    rw [compile, groupCode, numbers_append, numbers_append, own _ (by cases isBackward <;> rfl),
      own _ (by cases isBackward <;> rfl), ih isBackward (counted.enter name), marks, List.map_append,
      List.map_append]
    rfl
  | plain body ih => exact ih isBackward counted
  | look behind negative body ih =>
    have first : (if negative then Instr.negativeMatchAhead (codeSize (body.compile (direction behind isBackward) s) + 1)
        else .matchAhead (codeSize (body.compile (direction behind isBackward) s) + 1)).captures = [] := by
      cases negative <;> rfl
    rw [compile, lookCode, numbers_silent first, numbers_append, ih _ counted, numbers_silent rfl]
    exact List.append_nil _
  | cons term suffix rest ihTerm ihRest =>
    have here := suffix.numbers_code term counted (term.compile isBackward s)
    rw [ihTerm isBackward counted] at here
    have behind := ihRest isBackward (suffix.counted_scope (term.counted_scope counted))
    cases isBackward with
    | true => simp [compile, marks, numbers_append, here, behind]
    | false => simp [compile, marks, numbers_append, here, behind]
  | alt left right ihLeft ihRight =>
    rw [compile, altCode, numbers_silent rfl, numbers_append, numbers_silent rfl, ihLeft isBackward counted,
      ihRight isBackward (left.counted_scope counted), marks, List.map_append]

/-! ## The groups of a tree -/

/-- The numbers in the `SAVE_START`s of some code. -/
def starts (code : List Instr) : List Nat :=
  code.filterMap fun
    | .saveStart n => some n
    | _ => none

theorem starts_append (code code' : List Instr) : starts (code ++ code') = starts code ++ starts code' :=
  List.filterMap_append ..

theorem starts_quantifierCode (first last min max : Nat) (isGreedy : Bool) (body : List Instr) :
    starts (quantifierCode first last min max isGreedy body) = starts body := by
  have split (offset : Nat) : starts [splitInstr isGreedy offset] = [] := by cases isGreedy <;> rfl
  have loop (offset : Nat) : starts [loopInstr isGreedy offset min max] = [] := by cases isGreedy <;> rfl
  have silent {c : Prop} [Decidable c] {code : List Instr} (nothing : starts code = []) :
      starts (if c then code else []) = [] := by
    split_ifs
    · exact nothing
    · rfl
  rw [quantifierCode, ← List.singleton_append, starts_append, starts_append, starts_append, loopCode,
    starts_append, iterationCode, starts_append, starts_append, starts_append, silent (split _), silent rfl,
    silent rfl, silent rfl, loop]
  simp [starts]

theorem Suffix.starts_code (suffix : Suffix) (first : Nat) (body : List Instr) (s : Scope) :
    starts (suffix.code first body s) = starts body := by
  cases suffix with
  | kept => rfl
  | once => rfl
  | bounds min max isGreedy =>
    rw [Suffix.code]
    split_ifs
    · rfl
    · exact starts_quantifierCode ..

theorem Leaf.starts_code (l : Leaf) (isBackward : Bool) (names : List (List UInt8)) :
    starts (l.code isBackward names) = [] := by
  cases l with
  | assertion a => cases a <;> rfl
  | character test closed =>
    have silent : starts [test.instr] = [] := by
      cases test with
      | char value =>
        rw [CharTest.instr]
        split_ifs <;> rfl
      | _ => rfl
    rw [code, starts_append, starts_append, silent]
    cases isBackward <;> cases closed <;> rfl
  | nothing => rfl
  | reference capture => cases isBackward <;> rfl
  | named name sought => cases isBackward <;> rfl

/-- Every group of a tree has one `SAVE_START`. -/
theorem Tree.starts_compile (t : Tree) (isBackward : Bool) (s : Scope) :
    (starts (t.compile isBackward s)).Perm (List.range' s.captureCount t.groups) := by
  induction t generalizing isBackward s with
  | leaf l => rw [compile, l.starts_code]; rfl
  | void => rfl
  | nil => rfl
  | group name body ih =>
    have inner : (starts (body.compile isBackward (s.enter name))).Perm
        (List.range' (s.captureCount + 1) body.groups) := ih isBackward _
    rw [compile, groupCode, starts_append, starts_append, groups, List.range'_succ]
    cases isBackward with
    | true => exact (List.perm_append_singleton _ _).trans (inner.cons _)
    | false =>
      refine (List.Perm.of_eq (List.append_nil _)).trans ?_
      exact inner.cons _
  | plain body ih => exact ih isBackward s
  | look behind negative body ih =>
    have inner := ih (direction behind isBackward) s
    rw [compile, lookCode, ← List.singleton_append, starts_append, starts_append]
    cases negative <;> exact (List.Perm.of_eq (List.append_nil _)).trans inner
  | cons term suffix rest ihTerm ihRest =>
    have here := ihTerm isBackward s
    have behind := ihRest isBackward (suffix.scope (term.scope s))
    rw [Suffix.captureCount_scope, captureCount_scope] at behind
    rw [groups, ← List.range'_append_1]
    cases isBackward with
    | true =>
      rw [compile, if_pos rfl, starts_append, Suffix.starts_code]
      exact (behind.append here).trans List.perm_append_comm
    | false =>
      rw [compile, if_neg Bool.false_ne_true, starts_append, Suffix.starts_code]
      exact here.append behind
  | alt left right ihLeft ihRight =>
    have behind := ihRight isBackward (left.scope s)
    rw [captureCount_scope] at behind
    rw [groups, ← List.range'_append_1, compile, altCode, ← List.singleton_append, starts_append,
      starts_append, ← List.singleton_append, starts_append]
    exact (ihLeft isBackward s).append behind

/-- The numbers of a mark, cut to bytes, are those of the groups that it is for. -/
def Mark.Fits (pattern : Tree) (m : Mark) : Prop := m.numbers.map (· &&& 0xff) = m.groups pattern

section Fits

variable {pattern : Tree}

theorem Mark.fits_own {n : Nat} (small : n ≤ 255) : (own n).Fits pattern := by
  rw [Fits, numbers, groups, List.map_singleton, Instr.and_byte_eq_iff.mpr small]

theorem Mark.fits_reset {first last : Nat} (low : first ≤ 255) (high : last ≤ 255) :
    (reset first last).Fits pattern := by
  rw [Fits, numbers, groups, List.map_cons, List.map_singleton, Instr.and_byte_eq_iff.mpr low,
    Instr.and_byte_eq_iff.mpr high]

theorem Mark.fits_decimal (few : pattern.groups ≤ 255) {n : Nat} :
    (decimal n).Fits pattern ↔ n ≤ pattern.groups := by
  rw [Fits, numbers, groups, List.map_singleton]
  by_cases inside : n ≤ pattern.groups
  · rw [if_pos inside, Instr.and_byte_eq_iff.mpr (Nat.le_trans inside few)]
    exact iff_of_true rfl inside
  · rw [if_neg inside]
    exact iff_of_false (List.cons_ne_nil _ _) inside

theorem findGroupName_eq_none {names : List (List UInt8)} {name : List UInt8} (unknown : name ∉ names) :
    Pattern.findGroupName names name = none := by
  rw [Pattern.findGroupName, Option.map_eq_none_iff, List.findIdx?_eq_none_iff]
  intro x inside
  exact decide_eq_false fun same => unknown (same ▸ inside)

/-- A group that is known keeps its number. -/
theorem findGroupName_of_prefix {known names : List (List UInt8)} {name : List UInt8} (inside : name ∈ known)
    (before : known <+: names) :
    ∃ n ≤ names.length, Pattern.findGroupName known name = some n ∧ Pattern.findGroupName names name = some n := by
  obtain ⟨rest, rfl⟩ := before
  cases found : known.findIdx? (· = name) with
  | none =>
    have no := List.findIdx?_eq_none_iff.mp found name inside
    simp at no
  | some i =>
    have less := (List.findIdx?_eq_some_iff_findIdx_eq.mp found).1
    refine ⟨i + 1, ?_, ?_, ?_⟩
    · rw [List.length_append]
      omega
    · rw [Pattern.findGroupName, found]
      rfl
    · rw [Pattern.findGroupName, List.findIdx?_append, found]
      rfl

theorem Mark.fits_byName_known (few : pattern.groups ≤ 255) {known : List (List UInt8)} {name : List UInt8}
    {sought : Option Nat} (inside : name ∈ known) (before : known <+: pattern.names) :
    (Mark.byName known name sought).Fits pattern := by
  obtain ⟨n, le, first, whole⟩ := findGroupName_of_prefix inside before
  rw [Tree.length_names] at le
  rw [Fits, numbers, groups, whole, referenceNumber, first, List.map_singleton]
  exact congrArg (fun n => [n]) (Instr.and_byte_eq_iff.mpr (Nat.le_trans le few))

theorem Mark.fits_byName_forward {known : List (List UInt8)} {name : List UInt8} {sought : Option Nat}
    (unknown : name ∉ known) : (Mark.byName known name sought).Fits pattern ↔ pattern.Finds (name, sought) := by
  have number : referenceNumber known name sought = sought.getD 0 := by
    rw [referenceNumber, findGroupName_eq_none unknown]
    rfl
  rw [Fits, numbers, groups, number, List.map_singleton, Tree.Finds]
  cases Pattern.findGroupName pattern.names name with
  | none => exact iff_of_false (List.cons_ne_nil _ _) (by simp)
  | some n => simp [eq_comm]

theorem Suffix.fits_marks (few : pattern.groups ≤ 255) (suffix : Suffix) (term : Tree) {s : Scope}
    (within : s.groupNames ++ term.names <+: pattern.names) : ∀ m ∈ suffix.marks term s, m.Fits pattern := by
  have long := within.length_le
  rw [List.length_append, Tree.length_names, Tree.length_names] at long
  intro m inside
  cases suffix with
  | kept => cases inside
  | once => cases inside
  | bounds min max isGreedy =>
    cases term with
    | group name body =>
      rw [Tree.groups] at long
      rw [Suffix.marks] at inside
      split_ifs at inside
      · cases inside
      · obtain rfl := List.mem_singleton.mp inside
        exact Mark.fits_reset (by omega) (by omega)
    | _ => cases inside

/-- The bytes of the code of a tree are right if and only if its references are. -/
theorem Tree.fits_iff (few : pattern.groups ≤ 255) (t : Tree) (isBackward : Bool) {s : Scope}
    (within : s.groupNames ++ t.names <+: pattern.names) :
    (∀ m ∈ t.marks isBackward s, m.Fits pattern) ↔
      (∀ n ∈ t.decimals, n ≤ pattern.groups) ∧ ∀ r ∈ t.forwards s.groupNames, pattern.Finds r := by
  induction t generalizing isBackward s with
  | void => simp [marks, decimals, forwards]
  | nil => simp [marks, decimals, forwards]
  | leaf l =>
    cases l with
    | reference n => simp [marks, decimals, forwards, Mark.fits_decimal few]
    | named name sought =>
      by_cases known : name ∈ s.groupNames
      · have before : s.groupNames <+: pattern.names := (List.prefix_append _ _).trans within
        simp [marks, decimals, forwards, known, Mark.fits_byName_known few known before]
      · simp [marks, decimals, forwards, known, Mark.fits_byName_forward known]
    | _ => simp [marks, decimals, forwards]
  | group name body ih =>
    have inner : (s.enter name).groupNames ++ body.names <+: pattern.names := by
      rw [Scope.enter, List.append_assoc]
      exact within
    have long := within.length_le
    rw [List.length_append, length_names, length_names, groups] at long
    have own : (Mark.own (s.groupNames.length + 1)).Fits pattern := Mark.fits_own (by omega)
    rw [marks, List.forall_mem_append, List.forall_mem_append, ih isBackward inner]
    simp only [List.mem_singleton, forall_eq, own, true_and, and_true]
    rfl
  | plain body ih => exact ih isBackward within
  | look behind negative body ih => exact ih (direction behind isBackward) within
  | cons term suffix rest ihTerm ihRest =>
    rw [names, ← List.append_assoc] at within
    have before := (List.prefix_append _ _).trans within
    have here := ihTerm isBackward before
    have reset := suffix.fits_marks few term before
    have behind := ihRest isBackward (s := suffix.scope (term.scope s)) (by
      rw [Suffix.groupNames_scope, groupNames_scope]
      exact within)
    rw [Suffix.groupNames_scope, groupNames_scope] at behind
    have both : (∀ m ∈ (cons term suffix rest).marks isBackward s, m.Fits pattern) ↔
        (∀ m ∈ term.marks isBackward s, m.Fits pattern) ∧
          ∀ m ∈ rest.marks isBackward (suffix.scope (term.scope s)), m.Fits pattern := by
      cases isBackward with
      | true =>
        rw [marks, if_pos rfl, List.forall_mem_append, List.forall_mem_append]
        exact ⟨fun fits => ⟨fits.2.2, fits.1⟩, fun fits => ⟨fits.2, reset, fits.1⟩⟩
      | false =>
        rw [marks, if_neg Bool.false_ne_true, List.forall_mem_append, List.forall_mem_append]
        exact ⟨fun fits => ⟨fits.1.2, fits.2⟩, fun fits => ⟨⟨reset, fits.1⟩, fits.2⟩⟩
    rw [both, here, behind, decimals, forwards, List.forall_mem_append, List.forall_mem_append]
    exact and_and_and_comm
  | alt left right ihLeft ihRight =>
    rw [names, ← List.append_assoc] at within
    have behind := ihRight isBackward (s := left.scope s) (by
      rw [groupNames_scope]
      exact within)
    rw [groupNames_scope] at behind
    rw [marks, List.forall_mem_append, ihLeft isBackward ((List.prefix_append _ _).trans within), behind,
      decimals, forwards, List.forall_mem_append, List.forall_mem_append]
    exact and_and_and_comm

end Fits

/-! ## The bytecode -/

/-- The instruction that the executor reads where `instr` was emitted behind `pre`. -/
def Parser.read (s : Parser) (flags : Nat) (pre : List Instr) : Option Instr :=
  fetch (s.bytes flags) (opStartOffset + codeSize pre)

/-- What the executor reads where the instructions of `code` that name groups are, behind `pre`. -/
def Parser.namings (s : Parser) (flags : Nat) : List Instr → List Instr → List Instr
  | _, [] => []
  | pre, instr :: code =>
      (if instr.captures = [] then none else s.read flags pre).toList ++ s.namings flags (pre ++ [instr]) code

/-- The instructions in the bytes name the groups of the pattern that they were emitted for, and no two
    groups have one slot for their starts. -/
structure OwnSlots (s : Parser) (flags : Nat) (pattern : Tree) : Prop where
  carries : (s.namings flags [] s.buffer).map Instr.captures =
    [[0]] ++ (pattern.marks false Pattern.initialScope).map (Mark.groups pattern) ++ [[0]]
  apart : (starts (s.namings flags [] s.buffer)).Nodup

theorem length_flatMap_emit (code : List Instr) : (code.flatMap Instr.emit).length = codeSize code := by
  induction code with
  | nil => rfl
  | cons instr code ih => rw [List.flatMap_cons, List.length_append, Instr.length_emit, ih, codeSize_cons]

theorem read_eq {s : Parser} {flags : Nat} {pre post : List Instr} {instr : Instr}
    (is : s.buffer = pre ++ instr :: post) (names : instr.captures ≠ []) :
    s.read flags pre = some instr.stored := by
  have bytes : s.bytes flags =
      (u32 ((s.buffer.flatMap Instr.emit).length + 16) ++ u32 s.captureCount ++ u32 s.stackCount ++ u32 flags ++
        pre.flatMap Instr.emit) ++ (instr.emit ++ post.flatMap Instr.emit) := by
    rw [Parser.bytes, is, List.flatMap_append, List.flatMap_cons, List.append_assoc _ (pre.flatMap _)]
  have offset : opStartOffset + codeSize pre =
      (u32 ((s.buffer.flatMap Instr.emit).length + 16) ++ u32 s.captureCount ++ u32 s.stackCount ++ u32 flags ++
        pre.flatMap Instr.emit).length := by
    rw [List.length_append, ← length_flatMap_emit pre]
    rfl
  rw [Parser.read, bytes, offset]
  exact fetch_emit instr names _ _

theorem namings_eq {s : Parser} {flags : Nat} {pre code : List Instr} (is : s.buffer = pre ++ code) :
    s.namings flags pre code = (code.filter (·.captures ≠ [])).map Instr.stored := by
  induction code generalizing pre with
  | nil => rfl
  | cons instr code ih =>
    have split : s.buffer = (pre ++ [instr]) ++ code := by
      rw [is, List.append_assoc]
      rfl
    rw [Parser.namings, ih split]
    by_cases silent : instr.captures = []
    · rw [if_pos silent, List.filter_cons_of_neg (by simp [silent])]
      rfl
    · rw [if_neg silent, read_eq is silent, List.filter_cons_of_pos (by simp [silent])]
      rfl

theorem captures_namings (s : Parser) (flags : Nat) :
    (s.namings flags [] s.buffer).map Instr.captures = (numbers s.buffer).map (·.map (· &&& 0xff)) := by
  rw [namings_eq (List.nil_append _).symm, numbers, List.filter_map, List.map_map, List.map_map]
  exact List.map_congr_left fun instr _ => instr.captures_stored

theorem starts_namings (s : Parser) (flags : Nat) :
    starts (s.namings flags [] s.buffer) = (starts s.buffer).map (· &&& 0xff) := by
  rw [namings_eq (List.nil_append _).symm]
  induction s.buffer with
  | nil => rfl
  | cons instr code ih =>
    cases instr with
    | saveStart n => exact congrArg (_ :: ·) ih
    | _ => exact ih

theorem counted_initialScope : Pattern.initialScope.Counted := rfl

section Accepted

variable {s : Parser} {flags : Nat} {pattern : Tree}

/-- The bytes name the groups that the marks of the pattern are for. -/
theorem carries_iff (buffer : s.buffer =
    [.saveStart 0] ++ pattern.compile false Pattern.initialScope ++ [.saveEnd 0, .matchEnd]) :
    (s.namings flags [] s.buffer).map Instr.captures =
        [[0]] ++ (pattern.marks false Pattern.initialScope).map (Mark.groups pattern) ++ [[0]] ↔
      ∀ m ∈ pattern.marks false Pattern.initialScope, m.Fits pattern := by
  have emitted : numbers s.buffer =
      [[0]] ++ (pattern.marks false Pattern.initialScope).map Mark.numbers ++ [[0]] := by
    rw [buffer, numbers_append, numbers_append, pattern.numbers_compile false counted_initialScope]
    rfl
  have whole : [[0]].map (·.map (· &&& 0xff)) = [[0]] := rfl
  rw [captures_namings, emitted, List.map_append, List.map_append, List.map_map, whole,
    List.append_left_inj, List.append_right_inj, List.map_inj_left]
  rfl

/-- The starts in the bytes, which are those of the whole match and of all groups. -/
theorem starts_perm (buffer : s.buffer =
    [.saveStart 0] ++ pattern.compile false Pattern.initialScope ++ [.saveEnd 0, .matchEnd]) :
    (starts (s.namings flags [] s.buffer)).Perm ((List.range' 0 (pattern.groups + 1)).map (· &&& 0xff)) := by
  rw [starts_namings, buffer, starts_append, starts_append]
  refine List.Perm.map _ ((List.Perm.of_eq (List.append_nil _)).trans ?_)
  exact (pattern.starts_compile false Pattern.initialScope).cons 0

theorem apart_iff (buffer : s.buffer =
    [.saveStart 0] ++ pattern.compile false Pattern.initialScope ++ [.saveEnd 0, .matchEnd]) :
    (starts (s.namings flags [] s.buffer)).Nodup ↔ pattern.groups ≤ 255 := by
  rw [(starts_perm buffer).nodup_iff]
  constructor
  · intro apart
    have within : (List.range' 0 (pattern.groups + 1)).map (· &&& 0xff) ⊆ List.range 256 := by
      intro n inside
      obtain ⟨m, -, rfl⟩ := List.mem_map.mp inside
      exact List.mem_range.mpr (Nat.lt_succ_of_le Nat.and_le_right)
    have few := (List.subperm_of_subset apart within).length_le
    rw [List.length_map, List.length_range', List.length_range] at few
    exact Nat.le_of_succ_le_succ few
  · intro few
    have same : (List.range' 0 (pattern.groups + 1)).map (· &&& 0xff) = List.range' 0 (pattern.groups + 1) := by
      refine (List.map_congr_left fun n inside => ?_).trans (List.map_id _)
      have less := (List.mem_range'_1.mp inside).2
      exact Instr.and_byte_eq_iff.mpr (by omega)
    rw [same]
    exact List.nodup_range'

end Accepted

-- The search skips the group `(b)` behind the name `a`, and `c` becomes a name of the second group.
example : ((asciiPattern "\\k<c>(?<a>(b))(?<c>x)".toList 0).parse 30).toOption.map (·.buffer) =
    some [.saveStart 0, .backreference 2, .saveStart 1, .saveStart 2, .char 'b'.toNat, .saveEnd 2,
      .saveEnd 1, .saveStart 3, .char 'x'.toNat, .saveEnd 3, .saveEnd 0, .matchEnd] := by
  decide +kernel

/-- `n` empty groups. -/
def emptyGroups (n : Nat) : Pattern where
  icu := asciiIcu
  source := (List.range (2 * n)).map fun i => UInt8.ofNat (if i % 2 = 0 then '(' else ')').toNat
  flags := 0

/-- Where the group with the number `i` begins, or the end. -/
def groupCursor (n i : Nat) : Cursor := (emptyGroups n).next ⟨2 * i, 0⟩

theorem next_emptyGroups {n i c : Nat} (inside : i < 2 * n) :
    (emptyGroups n).next ⟨i, c⟩ = ⟨i + 1, (if i % 2 = 0 then '(' else ')').toNat⟩ := by
  have byte : (emptyGroups n).source[i]? = some (UInt8.ofNat (if i % 2 = 0 then '(' else ')').toNat) := by
    simp [emptyGroups, inside]
  simp only [Pattern.next, byte]
  split_ifs <;> rfl

theorem next_end {n c : Nat} : (emptyGroups n).next ⟨2 * n, c⟩ = ⟨2 * n, keyEof⟩ := by
  have byte : (emptyGroups n).source[2 * n]? = none := by simp [emptyGroups]
  simp only [Pattern.next, byte]

theorem groupCursor_c0 {n i : Nat} (inside : i ≤ n) :
    (groupCursor n i).c0 = '('.toNat ∨ (groupCursor n i).c0 = keyEof := by
  rcases Nat.eq_or_lt_of_le inside with rfl | less
  · exact .inr (congrArg Cursor.c0 next_end)
  · left
    rw [groupCursor, next_emptyGroups (by omega), if_pos (by omega)]

/-- The state behind the body of an empty group. -/
def behindGroup (s : Parser) : Parser :=
  { s with
    groupNames := s.groupNames ++ [[]]
    captureCount := s.captureCount + 1
    buffer := s.buffer ++ [.saveStart s.captureCount] ++ [.saveEnd s.captureCount]
    isEmpty := true }

theorem capture_runs {p : Pattern} {fuel : Nat} {s : Parser} (closed : s.cursor.c0 = ')'.toNat) :
    Ran (p.parseAssertionCapture (fuel + 2) false false 0) s (true, s.captureCount) (behindGroup s) := by
  have inner (t : Parser) (at' : t.cursor = s.cursor) :
      Ran (p.parseDisjunction (fuel + 1) false) t () { t with isEmpty := true } := by
    refine ran_lex_c0.mpr (ran_ite.mpr (.inl ⟨?_, ran_setEmpty.mpr rfl⟩))
    rw [at', closed]
  rw [Pattern.parseAssertionCapture]
  refine ran_lex_c0.mpr (ran_bind.mpr ⟨(true, s.captureCount), behindGroup s, ran_ite.mpr (.inr ⟨?_, ?_⟩), ?_⟩)
  · rw [closed]
    decide
  · exact ran_bind.mpr ⟨(), _, ran_addGroupName.mpr rfl, ran_bind.mpr ⟨_, _, ran_countCapture.mpr ⟨rfl, rfl⟩,
      ran_bind.mpr ⟨(), _, ran_emit.mpr rfl, ran_bind.mpr ⟨(), _, inner _ rfl, ran_bind.mpr ⟨(), _,
      ran_emit.mpr rfl, ran_pure.mpr ⟨rfl, rfl⟩⟩⟩⟩⟩⟩
  · refine ran_lex_c0.mpr (ran_ite.mpr (.inr ⟨?_, ran_ite.mpr (.inr ⟨?_, ran_pure.mpr ⟨rfl, rfl⟩⟩)⟩))
    · exact fun open' => open'.1 closed
    · exact fun open' => open' closed

/-- No quantifier follows. -/
theorem finishTerm_runs {p : Pattern} {fuel start pos first : Nat} {s : Parser}
    (next : s.cursor.c0 = '('.toNat ∨ s.cursor.c0 = keyEof) :
    Ran (p.finishTerm fuel false true start pos first) s () { s with isEmpty := false } := by
  have absent : Ran (p.readQuantifier fuel) s.cursor .absent s.cursor := by
    refine ran_bind.mpr ⟨_, _, ran_c0.mpr ⟨rfl, rfl⟩, ?_⟩
    rcases next with is | is <;> rw [is] <;> exact ran_pure.mpr ⟨rfl, rfl⟩
  refine ran_bind.mpr ⟨(), _, ran_onlyIf.mpr (.inl ⟨rfl, ran_bind.mpr ⟨s, s, ran_getParser.mpr ⟨rfl, rfl⟩,
    ran_bind.mpr ⟨.absent, s, ran_lex.mpr ⟨_, absent, rfl⟩, ran_setEmpty.mpr rfl⟩⟩⟩), ?_⟩
  exact ran_onlyIf.mpr (.inr ⟨nofun, rfl⟩)

/-- One empty group is parsed. -/
theorem emptyGroup_runs {n i fuel start : Nat} {s s' : Parser} (inside : i < n)
    (at' : s.cursor = groupCursor n i)
    (rest : Ran ((emptyGroups n).parseAlternative (fuel + 2) false start)
      { behindGroup s with cursor := groupCursor n (i + 1), isEmpty := false } () s') :
    Ran ((emptyGroups n).parseAlternative (fuel + 3) false start) s () s' := by
  have opened : s.cursor = ⟨2 * i + 1, '('.toNat⟩ := by
    rw [at', groupCursor, next_emptyGroups (by omega), if_pos (by omega)]
  have closed : (emptyGroups n).next s.cursor = ⟨2 * i + 2, ')'.toNat⟩ := by
    rw [opened, next_emptyGroups (by omega), if_neg (by omega)]
  have behind : (emptyGroups n).next ((emptyGroups n).next s.cursor) = groupCursor n (i + 1) := by
    rw [closed]
    rfl
  have term : Ran (do
      lex (emptyGroups n).advance
      let r ← (emptyGroups n).parseAssertionCapture (fuel + 2) false false 0
      lex (emptyGroups n).advance
      return r) s (true, s.captureCount) { behindGroup s with cursor := groupCursor n (i + 1) } := by
    rw [← behind]
    refine ran_lex_advance.mpr (ran_bind.mpr ⟨_, _, capture_runs (by rw [closed]), ?_⟩)
    exact ran_lex_advance.mpr (ran_pure.mpr ⟨rfl, rfl⟩)
  rw [Pattern.parseAlternative]
  refine ran_lex_c0.mpr (ran_onlyIf.mpr (.inl ⟨?_, ran_bind.mpr ⟨_, s, ran_position.mpr ⟨rfl, rfl⟩,
    ran_bind.mpr ⟨(true, s.captureCount), _, ran_ite.mpr (.inl ⟨?_, term⟩), ran_bind.mpr ⟨(), _,
    finishTerm_runs (groupCursor_c0 inside), rest⟩⟩⟩⟩))
  · rw [opened]
    exact (by decide : '('.toNat ≠ '|'.toNat ∧ '('.toNat ≠ keyEof ∧ '('.toNat ≠ ')'.toNat)
  · rw [opened]

theorem emptyGroups_run {n k : Nat} (start fuel : Nat) :
    ∀ (i : Nat) (s : Parser), i + k = n → s.cursor = groupCursor n i →
      ∃ s', Ran ((emptyGroups n).parseAlternative (fuel + k + 2) false start) s () s' ∧
        s'.captureCount = s.captureCount + k ∧ s'.cursor.c0 = keyEof := by
  induction k with
  | zero =>
    rintro i s rfl at'
    have ended : s.cursor.c0 = keyEof := by rw [at', groupCursor, Nat.add_zero, next_end]
    refine ⟨s, ?_, rfl, ended⟩
    rw [Pattern.parseAlternative]
    refine ran_lex_c0.mpr (ran_onlyIf.mpr (.inr ⟨?_, rfl⟩))
    exact fun more => more.2.1 ended
  | succ k ih =>
    intro i s total at'
    obtain ⟨s', ran, counted, ended⟩ := ih (i + 1)
      { behindGroup s with cursor := groupCursor n (i + 1), isEmpty := false } (by omega) rfl
    refine ⟨s', emptyGroup_runs (i := i) (by omega) at' ran, ?_, ended⟩
    rw [counted]
    exact Nat.add_right_comm s.captureCount 1 k

theorem emptyGroups_parse (n : Nat) :
    ∃ s, (emptyGroups n).parse (n + 3) = .ok s ∧ s.captureCount = n + 1 := by
  let first : Parser :=
    { Pattern.initial with
      cursor := groupCursor n 0
      captureCount := 1
      buffer := [.saveStart 0] }
  obtain ⟨t, ran, counted, ended⟩ := emptyGroups_run (n := n) (k := n) 1 0 0 first (Nat.zero_add n) rfl
  rw [Nat.zero_add] at ran
  have others : Ran ((emptyGroups n).parseAlternatives (n + 2) false 1) t () t := by
    rw [Pattern.parseAlternatives]
    refine ran_lex_c0.mpr (ran_bind.mpr ⟨(), t, ran_onlyIf.mpr (.inr ⟨?_, rfl⟩),
      ran_lex_c0.mpr (ran_onlyIf.mpr (.inr ⟨fun more => more.1 ended, rfl⟩))⟩)
    rw [ended]
    decide
  have disjunction : Ran ((emptyGroups n).parseDisjunction (n + 3) false) first () t := by
    rw [Pattern.parseDisjunction]
    refine ran_lex_c0.mpr (ran_ite.mpr (.inr ⟨?_, ran_bind.mpr ⟨1, first, ran_position.mpr ⟨rfl, rfl⟩,
      ran_bind.mpr ⟨(), t, ran, others⟩⟩⟩))
    rcases groupCursor_c0 (Nat.zero_le n) with is | is
    · exact fun closed => absurd (is.symm.trans closed) (by decide)
    · exact fun closed => absurd (is.symm.trans closed) (by decide)
  have body : Ran ((emptyGroups n).parseBody (n + 3)) Pattern.initial ()
      { t with buffer := t.buffer ++ [.saveEnd 0] ++ [.matchEnd] } := by
    refine ran_lex_advance.mpr (ran_bind.mpr ⟨0, _, ran_countCapture.mpr ⟨rfl, rfl⟩, ran_bind.mpr ⟨(), _,
      ran_emit.mpr rfl, ran_bind.mpr ⟨(), t, disjunction, ran_lex_c0.mpr (ran_ite.mpr (.inr ⟨fun more =>
      more ended, ran_bind.mpr ⟨(), _, ran_emit.mpr rfl, ran_emit.mpr rfl⟩⟩))⟩⟩⟩)
  refine ⟨_, bind_eq_ok.mpr ⟨_, body, rfl⟩, ?_⟩
  rw [Nat.add_comm n 1]
  exact counted

end RegExp

end ArkRuntime
