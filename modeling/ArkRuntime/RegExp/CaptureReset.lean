import ArkRuntime.RegExp.ClassBytes
import ArkRuntime.RegExp.Executor

/-!
# The captures of a quantified atom

`ParseQuantifier` puts a `SAVE_RESET` in front of the iterations of a loop only for an atom that is a capture
group itself, with the first and the last group of the atom in one byte each. For these atoms every iteration
starts with the groups of the atom undefined, if the last number fits in its byte; for every other atom with
groups in it an iteration starts with what the groups were before (`iterations_fresh_iff`).
-/

namespace ArkRuntime

namespace RegExp

open Backtracking

/-! ## Loops -/

/-- A quantified atom with the direction and the scope in which it is compiled. -/
structure Loop where
  atom : Tree
  isBackward : Bool
  scope : Scope
  min : Nat
  max : Nat
  isGreedy : Bool

namespace Loop

variable (l : Loop)

def captureStart : Nat := l.atom.captureIndex l.scope.captureCount

def captureEnd : Nat := (l.atom.scope l.scope).captureCount - 1

/-- The atom is or contains the group with the number `k`. -/
def Contains (k : Nat) : Prop := l.scope.captureCount ≤ k ∧ k < l.scope.captureCount + l.atom.groups

/-- The atom contains no group, or it is a group itself and the number of its last group fits in a byte. -/
def Cleared : Prop := l.atom.groups = 0 ∨ (∃ name body, l.atom = .group name body) ∧ l.captureEnd ≤ 255

/-- The groups that the bytes of the `SAVE_RESET` name, if there is one. -/
def Clears (k : Nat) : Prop :=
  l.captureStart ≠ 0 ∧ l.captureStart &&& 0xff ≤ k ∧ k ≤ l.captureEnd &&& 0xff

def body : List Instr := l.atom.compile l.isBackward l.scope

/-- What an iteration does before the captures are reset. -/
def opening : List Instr := if l.max = int32Max then [.pushChar] else []

def reset : List Instr := if l.captureStart ≠ 0 then [.saveReset l.captureStart l.captureEnd] else []

def code : List Instr := loopCode l.captureStart l.captureEnd l.min l.max l.isGreedy l.body

theorem code_eq : ∃ closing, l.code = l.opening ++ l.reset ++ l.body ++ closing := by
  refine ⟨(if l.max = int32Max then [.checkChar Pattern.loopSize] else []) ++
    [loopInstr l.isGreedy (backOffset (codeSize (iterationCode l.captureStart l.captureEnd l.max l.body)))
      l.min l.max], ?_⟩
  rw [code, loopCode, iterationCode, opening, reset]
  simp only [List.append_assoc]

theorem captureEnd_eq : l.captureEnd = l.scope.captureCount + l.atom.groups - 1 := by
  rw [captureEnd, Tree.captureCount_scope]

/-- Only an atom that is a group has the number of a group. -/
theorem captureStart_cases : l.captureStart = 0 ∨
    (∃ name body, l.atom = .group name body) ∧ l.captureStart = l.scope.captureCount := by
  rw [captureStart]
  cases l.atom with
  | group name body => exact .inr ⟨⟨name, body, rfl⟩, rfl⟩
  | _ => exact .inl rfl

/-- The bytes of the `SAVE_RESET` name all groups of the atom. -/
theorem cleared_iff {l : Loop} (positive : 0 < l.scope.captureCount) :
    l.Cleared ↔ ∀ k, l.Contains k → l.Clears k := by
  have last := l.captureEnd_eq
  constructor
  · rintro (none | ⟨⟨name, body, is⟩, fits⟩) k ⟨low, high⟩
    · omega
    · have first : l.captureStart = l.scope.captureCount := by rw [captureStart, is, Tree.captureIndex]
      rw [Clears, Instr.and_byte_eq_iff.mpr fits, Instr.and_byte_eq_iff.mpr (by omega)]
      omega
  · intro clears
    by_cases none : l.atom.groups = 0
    · exact .inl none
    · obtain ⟨numbered, -, -⟩ := clears l.scope.captureCount ⟨Nat.le_refl _, by omega⟩
      obtain ⟨-, -, inside⟩ := clears l.captureEnd ⟨by omega, by omega⟩
      refine .inr ⟨(l.captureStart_cases.resolve_left numbered).1, Nat.le_trans inside ?_⟩
      exact Nat.and_le_right

end Loop

/-- The loop that a quantifier makes of an atom. An atom that can only be empty is not repeated. -/
def Suffix.loops (suffix : Suffix) (atom : Tree) (isBackward : Bool) (s : Scope) : List Loop :=
  match suffix with
  | bounds min max isGreedy =>
      if (atom.scope s).isEmpty then [] else [⟨atom, isBackward, s, min, max, isGreedy⟩]
  | _ => []

/-- The loops in the code of a tree. -/
def Tree.loops : Tree → Bool → Scope → List Loop
  | group name body, isBackward, s => body.loops isBackward (s.enter name)
  | plain body, isBackward, s => body.loops isBackward s
  | look behind _ body, isBackward, s => body.loops (direction behind isBackward) s
  | cons term suffix rest, isBackward, s =>
      term.loops isBackward s ++ suffix.loops term isBackward s ++
        rest.loops isBackward (suffix.scope (term.scope s))
  | alt left right, isBackward, s => left.loops isBackward s ++ right.loops isBackward (left.scope s)
  | _, _, _ => []

theorem Suffix.infix_code {suffix : Suffix} {first : Nat} {body : List Instr} {s : Scope} :
    body <:+: suffix.code first body s := by
  cases suffix with
  | kept => exact List.infix_rfl
  | once => exact List.infix_rfl
  | bounds min max isGreedy =>
    rw [Suffix.code]
    split_ifs
    · exact List.infix_rfl
    · rw [quantifierCode, loopCode, iterationCode]
      exact (((List.infix_append _ body _).trans (List.prefix_append _ _).isInfix).trans
        (List.infix_append _ _ _)).trans (List.suffix_cons _ _).isInfix

/-- The code of a loop of a tree is in the code of the tree, and its groups are groups of the tree. -/
theorem Tree.loop_inside {t : Tree} {isBackward : Bool} {s : Scope} {l : Loop} (loop : l ∈ t.loops isBackward s) :
    l.code <:+: t.compile isBackward s ∧ s.captureCount ≤ l.scope.captureCount ∧
      l.scope.captureCount + l.atom.groups ≤ s.captureCount + t.groups := by
  induction t generalizing isBackward s with
  | leaf l => cases loop
  | void => cases loop
  | nil => cases loop
  | group name body ih =>
    obtain ⟨inside, low, high⟩ := ih loop
    refine ⟨inside.trans (List.infix_append _ _ _), ?_⟩
    simp only [Scope.enter, groups] at low high ⊢
    omega
  | plain body ih => exact ih loop
  | look behind negative body ih =>
    obtain ⟨inside, bounds⟩ := ih loop
    exact ⟨inside.trans ((List.prefix_append _ _).isInfix.trans (List.suffix_cons _ _).isInfix), bounds⟩
  | cons term suffix rest ihTerm ihRest =>
    have parts {code : List Instr}
        (inside : code <:+: suffix.code (term.captureIndex s.captureCount) (term.compile isBackward s) (term.scope s) ∨
          code <:+: rest.compile isBackward (suffix.scope (term.scope s))) :
        code <:+: (cons term suffix rest).compile isBackward s := by
      rw [compile]
      cases isBackward with
      | true => exact inside.elim (·.trans (List.suffix_append _ _).isInfix) (·.trans (List.prefix_append _ _).isInfix)
      | false => exact inside.elim (·.trans (List.prefix_append _ _).isInfix) (·.trans (List.suffix_append _ _).isInfix)
    simp only [groups]
    rw [loops, List.mem_append, List.mem_append] at loop
    obtain (loop | loop) | loop := loop
    · obtain ⟨inside, low, high⟩ := ihTerm loop
      exact ⟨parts (.inl (inside.trans Suffix.infix_code)), low, by omega⟩
    · cases suffix with
      | kept => cases loop
      | once => cases loop
      | bounds min max isGreedy =>
        rw [Suffix.loops] at loop
        split_ifs at loop with empty
        · cases loop
        · obtain rfl := List.mem_singleton.mp loop
          refine ⟨parts (.inl ?_), Nat.le_refl _, by simp only; omega⟩
          rw [Suffix.code, if_neg empty, quantifierCode]
          exact ((List.suffix_append _ _).isInfix.trans (List.prefix_append _ _).isInfix).trans
            (List.suffix_cons _ _).isInfix
    · obtain ⟨inside, low, high⟩ := ihRest loop
      rw [Suffix.captureCount_scope, captureCount_scope] at low high
      exact ⟨parts (.inr inside), by omega, by omega⟩
  | alt left right ihLeft ihRight =>
    simp only [groups]
    rw [loops, List.mem_append] at loop
    rcases loop with loop | loop
    · obtain ⟨inside, low, high⟩ := ihLeft loop
      exact ⟨inside.trans ((List.prefix_append _ _).isInfix.trans (List.suffix_cons _ _).isInfix), low, by omega⟩
    · obtain ⟨inside, low, high⟩ := ihRight loop
      rw [captureCount_scope] at low high
      exact ⟨inside.trans (((List.suffix_cons _ _).trans (List.suffix_append _ _)).isInfix.trans
        (List.suffix_cons _ _).isInfix), by omega, by omega⟩

/-! ## What an instruction does to the captures -/

namespace Executor

variable {e : Executor} {s t : ExecState} {k : Nat}

/-- The group `k` is undefined. -/
def Undefined (k : Nat) (s : ExecState) : Prop := s.captureResultList[k]? = some ⟨none, none⟩

/-- No capture of `k` is saved here. -/
def Spares (e : Executor) (k : Nat) (s : ExecState) : Prop :=
  ∀ instr, fetch e.program.byteCode s.currentPc = some instr → instr ≠ .saveStart k ∧ instr ≠ .saveEnd k

theorem setCapture_spec {index : Nat} {f : CaptureState → CaptureState} (did : setCapture s index f = some t) :
    ∃ c, s.captureResultList[index]? = some c ∧
      t = { s with captureResultList := s.captureResultList.set index (f c) } := by
  obtain ⟨c, got, did⟩ := Option.bind_eq_some_iff.mp did
  cases did
  exact ⟨c, got, rfl⟩

/-- The captures from `i` on are undefined after the loop, the others as before. -/
theorem resetCaptures_spec {n : Nat} : ∀ {i : Nat} {s t : ExecState}, resetCaptures n i s = some t →
    ∃ captures, t = { s with captureResultList := captures } ∧ captures.length = s.captureResultList.length ∧
      ∀ k, captures[k]? = if i ≤ k ∧ k < i + n then some ⟨none, none⟩ else s.captureResultList[k]? := by
  induction n with
  | zero =>
    rintro i s t ⟨⟩
    refine ⟨s.captureResultList, rfl, rfl, fun k => ?_⟩
    rw [if_neg (by omega)]
  | succ n ih =>
    intro i s t did
    obtain ⟨u, set, did⟩ := Option.bind_eq_some_iff.mp did
    obtain ⟨c, got, rfl⟩ := setCapture_spec set
    obtain ⟨captures, is, length, values⟩ := ih did
    refine ⟨captures, is, length.trans (List.length_set ..), fun k => ?_⟩
    rw [values k, List.getElem?_set]
    have inside : i < s.captureResultList.length := (List.getElem?_eq_some_iff.mp got).1
    by_cases here : i = k
    · subst here
      rw [if_neg (by omega), if_pos rfl, if_pos inside, if_pos (by omega)]
    · rw [if_neg here]
      have same : (i + 1 ≤ k ∧ k < i + 1 + n) ↔ (i ≤ k ∧ k < i + (n + 1)) := by omega
      simp only [same]

theorem resetCaptures_runs {n : Nat} : ∀ {i : Nat} {s : ExecState}, i + n ≤ s.captureResultList.length →
    ∃ t, resetCaptures n i s = some t := by
  induction n with
  | zero => exact fun _ => ⟨_, rfl⟩
  | succ n ih =>
    intro i s room
    have inside : i < s.captureResultList.length := by omega
    have set : setCapture s i (fun _ => ⟨none, none⟩) =
        some { s with captureResultList := s.captureResultList.set i ⟨none, none⟩ } := by
      rw [setCapture, List.getElem?_eq_getElem inside]
      rfl
    obtain ⟨t, did⟩ := ih (i := i + 1)
      (s := { s with captureResultList := s.captureResultList.set i ⟨none, none⟩ }) (by
        show i + 1 + n ≤ (s.captureResultList.set i ⟨none, none⟩).length
        rw [List.length_set]
        omega)
    refine ⟨t, ?_⟩
    rw [resetCaptures, set]
    exact did

theorem captures_counted (s : ExecState) (instr : Instr) :
    (counted s instr).captureResultList = s.captureResultList := by
  cases instr with
  | loop start min max => rw [counted]; cases peekStack s <;> rfl
  | loopGreedy start min max => rw [counted]; cases peekStack s <;> rfl
  | _ => rfl

/-- What is true of all states with the same captures, with one more capture saved or with captures reset is true of
    what a step leads to and saves, if the instruction may do so. -/
theorem effect_all {P : ExecState → Prop} (keeps : ∀ t, t.captureResultList = s.captureResultList → P t)
    (saves : ∀ instr k, fetch e.program.byteCode s.currentPc = some instr → instr = .saveStart k ∨ instr = .saveEnd k →
      ∀ c t, t.captureResultList = s.captureResultList.set k c → P t)
    (resets : ∀ first n t, resetCaptures n first s = some t → ∀ u, u.captureResultList = t.captureResultList → P u) :
    (e.effect s).All P := by
  rw [effect]
  split_ifs with inside
  · cases did : (fetch e.program.byteCode s.currentPc).bind fun instr => e.handle instr s with
    | none => trivial
    | some eff =>
      obtain ⟨instr, fetched, handled⟩ := Option.bind_eq_some_iff.mp did
      refine handle_ensures (Q := fun eff => eff.All P) ?_ ?_ ?_ ?_ ?_ eff handled
      · rintro eff (rfl | rfl | rfl) <;> trivial
      · exact fun t same _ => keeps t same
      · intro k f t is set
        obtain ⟨c, -, rfl⟩ := setCapture_spec set
        exact saves instr k fetched is _ _ rfl
      · exact fun first last t _ reset => resets first _ t reset _ rfl
      · exact fun kind saved first _ => ⟨keeps _ (captures_counted s instr), keeps _ (captures_counted s instr)⟩
  · trivial

theorem length_line {allowed : ExecState → Prop} (line : Line e.effect keepCaptures allowed s t) :
    t.captureResultList.length = s.captureResultList.length := by
  refine line.invariant (P := fun t : ExecState => t.captureResultList.length = s.captureResultList.length)
    (fun t _ same => effect_all ?_ ?_ ?_) ?_ rfl
  · intro t' is
    rw [is, same]
  · intro instr k _ _ c t' is
    rw [is, List.length_set, same]
  · intro first n u did t' is
    obtain ⟨captures, rfl, length, -⟩ := resetCaptures_spec did
    rw [is, length, same]
  · exact fun _ _ same => same

/-- Along a line that saves no capture of it a group stays undefined. -/
theorem undefined_line (line : Line e.effect keepCaptures (e.Spares k) s t) (undefined : Undefined k s) :
    Undefined k t := by
  refine line.invariant (fun t spares undefined => effect_all ?_ ?_ ?_) ?_ undefined
  · intro t' is
    rw [Undefined, is]
    exact undefined
  · intro instr k' fetched saves c t' is
    have other : k' ≠ k := by
      rintro rfl
      exact saves.elim (spares instr fetched).1 (spares instr fetched).2
    rw [Undefined, is, List.getElem?_set_ne other]
    exact undefined
  · intro first n u did t' is
    obtain ⟨captures, rfl, -, values⟩ := resetCaptures_spec did
    rw [Undefined, is, values k]
    split_ifs
    · rfl
    · exact undefined
  · exact fun _ _ undefined => undefined

end Executor

/-! ## The bytecode -/

/-- The executor runs the bytes of the parser, and the `uint32_t` numbers of their header do not wrap. -/
structure Loaded (e : Executor) (parser : Parser) (flags : Nat) : Prop where
  program : Program.load (parser.bytes flags) = some e.program
  small : (parser.bytes flags).length < 2 ^ 32
  few : parser.captureCount < 2 ^ 32

/-- The place behind some code. -/
def place (code : List Instr) : Nat := opStartOffset + codeSize code

section

variable {e : Executor} {parser : Parser} {flags : Nat} {pre post : List Instr} {instr : Instr} {s : ExecState}

theorem length_bytes (parser : Parser) (flags : Nat) : (parser.bytes flags).length = place parser.buffer := by
  rw [place, ← length_flatMap_emit]
  simp only [Parser.bytes, List.length_append]
  rfl

theorem Program.load_spec {buf : List UInt8} {program : Program} (load : Program.load buf = some program) :
    program.byteCode = buf ∧ getU32 buf 0 = some program.size ∧ getU32 buf 4 = some program.nCapture := by
  rw [Program.load] at load
  simp only [Option.bind_eq_bind, Option.pure_def, Option.bind_eq_some_iff, Option.some.injEq] at load
  obtain ⟨size, size', nCapture, nCapture', nStack, -, flags, -, rfl⟩ := load
  exact ⟨rfl, size', nCapture'⟩

theorem Loaded.size (loaded : Loaded e parser flags) : e.program.size = place parser.buffer := by
  have small := loaded.small
  rw [length_bytes] at small
  have read := u32_format.reads (place parser.buffer) small []
    (u32 parser.captureCount ++ u32 parser.stackCount ++ u32 flags ++ parser.buffer.flatMap Instr.emit)
  have same : parser.bytes flags = [] ++ (u32 (place parser.buffer) ++
      (u32 parser.captureCount ++ u32 parser.stackCount ++ u32 flags ++ parser.buffer.flatMap Instr.emit)) := by
    simp only [Parser.bytes, length_flatMap_emit, List.append_assoc, List.nil_append]
    rw [Nat.add_comm]
    rfl
  rw [← same] at read
  exact Option.some.inj ((Program.load_spec loaded.program).2.1.symm.trans read)

theorem Loaded.nCapture (loaded : Loaded e parser flags) : e.program.nCapture = parser.captureCount := by
  have read := u32_format.reads parser.captureCount loaded.few (u32 ((parser.buffer.flatMap Instr.emit).length + 16))
    (u32 parser.stackCount ++ u32 flags ++ parser.buffer.flatMap Instr.emit)
  have same : parser.bytes flags = u32 ((parser.buffer.flatMap Instr.emit).length + 16) ++
      (u32 parser.captureCount ++ (u32 parser.stackCount ++ u32 flags ++ parser.buffer.flatMap Instr.emit)) := by
    simp only [Parser.bytes, List.append_assoc]
  rw [← same] at read
  exact Option.some.inj ((Program.load_spec loaded.program).2.2.symm.trans read)

/-- `SAVE_RESET` clears the groups between its bytes. -/
theorem Loaded.effect_saveReset (loaded : Loaded e parser flags) {first last : Nat}
    (is : parser.buffer = pre ++ .saveReset first last :: post) (here : s.currentPc = place pre)
    (low : first < s.captureResultList.length) (high : last < s.captureResultList.length) :
    ∃ captures, e.effect s = .next { s with
        currentPc := place (pre ++ [.saveReset first last])
        captureResultList := captures } ∧
      ∀ k, captures[k]? = if first &&& 0xff ≤ k ∧ k ≤ last &&& 0xff then some ⟨none, none⟩
        else s.captureResultList[k]? := by
  have fetched : fetch e.program.byteCode s.currentPc = some (.saveReset (first &&& 0xff) (last &&& 0xff)) := by
    rw [(Program.load_spec loaded.program).1, here]
    exact read_eq is (List.cons_ne_nil _ _)
  have small := loaded.small
  rw [length_bytes, is, place, codeSize_append, codeSize_cons, Instr.size] at small
  have one : codeSize [.saveReset first last] = Instr.size (.saveReset first last) := rfl
  have inside : s.currentPc < e.program.size := by
    rw [loaded.size, here, is, place, place, codeSize_append, codeSize_cons, Instr.size]
    omega
  have behind : Executor.addOffset s.currentPc (0 + Instr.size (.saveReset first last)) =
      place (pre ++ [.saveReset first last]) := by
    rw [here, Executor.addOffset, place, place, codeSize_append, one, Instr.size, Nat.mod_eq_of_lt (by omega)]
    omega
  have first' : first &&& 0xff ≤ first := Nat.and_le_left
  have last' : last &&& 0xff ≤ last := Nat.and_le_left
  obtain ⟨t, reset⟩ := Executor.resetCaptures_runs (n := (last &&& 0xff) + 1 - (first &&& 0xff))
    (i := first &&& 0xff) (s := s) (by omega)
  obtain ⟨captures, rfl, -, values⟩ := Executor.resetCaptures_spec reset
  refine ⟨captures, ?_, fun k => ?_⟩
  · rw [Executor.effect, if_pos inside, fetched]
    show (Executor.handleOpSaveReset _ _ _ s).getD .fault = _
    rw [Executor.handleOpSaveReset, reset, ← behind]
    rfl
  · rw [values k]
    have same : (first &&& 0xff ≤ k ∧ k < (first &&& 0xff) + ((last &&& 0xff) + 1 - (first &&& 0xff))) ↔
        (first &&& 0xff ≤ k ∧ k ≤ last &&& 0xff) := by omega
    simp only [same]

end

/-! ## Iterations -/

namespace Loop

/-- The start of an iteration, from `s` to the code of the atom. -/
def Starts (l : Loop) (e : Executor) (s t : ExecState) : Prop :=
  if l.captureStart = 0 then t = s else e.effect s = .next t

/-- The place where the captures are to be reset, for code behind `pre`. -/
def startPc (l : Loop) (pre : List Instr) : Nat := place (pre ++ l.opening)

/-- All groups of the atom are undefined where the code of the atom starts, and each of them is so until it takes
    part in the match. -/
def Fresh (l : Loop) (e : Executor) (pre : List Instr) (s : ExecState) : Prop :=
  ∃ t, l.Starts e s t ∧ t.currentPc = place (pre ++ l.opening ++ l.reset) ∧
    ∀ k, l.Contains k → ∀ u, Line e.effect Executor.keepCaptures (e.Spares k) t u → Executor.Undefined k u

variable {e : Executor} {parser : Parser} {flags : Nat} {pre post : List Instr} {s : ExecState} {l : Loop}

/-- An iteration starts afresh exactly if each group of the atom is cleared or is undefined before it. -/
theorem fresh_iff (loaded : Loaded e parser flags) (is : parser.buffer = pre ++ l.code ++ post)
    (here : s.currentPc = l.startPc pre)
    (known : l.scope.captureCount + l.atom.groups ≤ s.captureResultList.length) :
    l.Fresh e pre s ↔ ∀ k, l.Contains k → l.Clears k ∨ Executor.Undefined k s := by
  by_cases plain : l.captureStart = 0
  · have stays : s.currentPc = place (pre ++ l.opening ++ l.reset) := by
      rw [reset, if_neg (not_not.mpr plain), List.append_nil]
      exact here
    constructor
    · rintro ⟨t, starts, -, undefined⟩ k contains
      rw [Starts, if_pos plain] at starts
      subst starts
      exact .inr (undefined k contains _ .refl)
    · intro undefined
      refine ⟨s, (if_pos plain).mpr rfl, stays, fun k contains u line => ?_⟩
      rcases undefined k contains with clears | undefined
      · exact absurd plain clears.1
      · exact Executor.undefined_line line undefined
  · obtain ⟨closing, code⟩ := l.code_eq
    obtain ⟨⟨name, body, group⟩, first⟩ := l.captureStart_cases.resolve_left plain
    have groups : 0 < l.atom.groups := by rw [group, Tree.groups]; omega
    have last := l.captureEnd_eq
    have resets : l.reset = [.saveReset l.captureStart l.captureEnd] := if_pos plain
    have is' : parser.buffer = (pre ++ l.opening) ++ .saveReset l.captureStart l.captureEnd ::
        (l.body ++ closing ++ post) := by
      rw [is, code, resets]
      simp only [List.append_assoc, List.cons_append, List.nil_append]
    obtain ⟨captures, effect, values⟩ := loaded.effect_saveReset is' here (by omega) (by omega)
    constructor
    · rintro ⟨t, starts, -, undefined⟩ k contains
      rw [Starts, if_neg plain, effect] at starts
      cases starts
      have now := undefined k contains _ .refl
      rw [Executor.Undefined, values k] at now
      split_ifs at now with cleared
      · exact .inl ⟨plain, cleared⟩
      · exact .inr now
    · intro undefined
      refine ⟨_, (if_neg plain).mpr effect, by rw [resets], fun k contains u line => ?_⟩
      refine Executor.undefined_line line ?_
      rw [Executor.Undefined, values k]
      split_ifs with cleared
      · rfl
      · rcases undefined k contains with clears | undefined
        · exact absurd clears.2 cleared
        · exact undefined

end Loop

/-- `(c)|d`. -/
def eitherTree (c d : Nat) : Tree :=
  .alt (.cons (.group [] (.cons (.leaf (.character (.char c) true)) .once .nil)) .once .nil)
    (.cons (.leaf (.character (.char d) true)) .once .nil)

/-- `(?:(a)|b)*((c)|d)*`. -/
def nestedTree : Tree :=
  .cons (.plain (eitherTree 97 98)) (.bounds 0 int32Max true)
    (.cons (.group [] (eitherTree 99 100)) (.bounds 0 int32Max true) .nil)

def nestedPattern : Pattern :=
  asciiPattern ['(', '?', ':', '(', 'a', ')', '|', 'b', ')', '*', '(', '(', 'c', ')', '|', 'd', ')', '*'] 0

def nestedLoop : Loop := ⟨.plain (eitherTree 97 98), false, Pattern.initialScope, 0, int32Max, true⟩

def nestedCode : List Instr := [.saveStart 0] ++ nestedTree.compile false Pattern.initialScope ++ [.saveEnd 0, .matchEnd]

/-- The bytecode of the pattern on the input `abcd`. -/
def nestedExecutor : Executor where
  icu := asciiIcu.toCaseMapping
  program := ⟨u32 120 ++ u32 4 ++ u32 4 ++ u32 0 ++ nestedCode.flatMap Instr.emit, 120, 4, 4, 0⟩
  input := [97, 98, 99, 100]
  isWideChar := false

theorem nestedPattern_reads_either {k c d : Nat} (here : (k, c, d) = (4, 97, 98) ∨ (k, c, d) = (12, 99, 100)) :
    Reads nestedPattern .disjunction ⟨k, 40⟩ (eitherTree c d) ⟨k + 5, 41⟩ := by
  -- the letter `c` at the place `k`, with the alternative that it is alone
  have letter (c k : Nat) (read : Ran (nestedPattern.readLeaf 1) ⟨k, c⟩ (.character (.char c) true) ⟨k + 1, 41⟩)
      (plain : c ≠ '('.toNat ∧ c ≠ '|'.toNat ∧ c ≠ keyEof ∧ c ≠ ')'.toNat)
      (once : Ran (nestedPattern.readQuantifier 1) ⟨k + 1, 41⟩ .absent ⟨k + 1, 41⟩) :
      Reads nestedPattern .alternative ⟨k, c⟩ (.cons (.leaf (.character (.char c) true)) .once .nil) ⟨k + 1, 41⟩ :=
    .cons plain.2.1 plain.2.2.1 plain.2.2.2 (.leaf plain.1 (.simple read)) (.absent once) (.nil (.inr (.inr rfl)))
  rcases here with is | is <;> cases is
  · have a := letter 97 5 rfl (by decide) rfl
    have b := letter 98 8 rfl (by decide) rfl
    have group := @Reads.paren nestedPattern ⟨4, 40⟩ ⟨5, 97⟩ ⟨6, 41⟩ (.group []) _ rfl (.group (by decide))
      (.choice (by decide) a (.last (.inr rfl))) rfl
    exact .choice (by decide) (.cons (by decide) (by decide) (by decide) group (@ReadsSuffix.absent _ 1 _ _ rfl)
      (.nil (.inl rfl))) (.more rfl b (.last (.inr rfl)))
  · have c := letter 99 13 rfl (by decide) rfl
    have d := letter 100 16 rfl (by decide) rfl
    have group := @Reads.paren nestedPattern ⟨12, 40⟩ ⟨13, 99⟩ ⟨14, 41⟩ (.group []) _ rfl (.group (by decide))
      (.choice (by decide) c (.last (.inr rfl))) rfl
    exact .choice (by decide) (.cons (by decide) (by decide) (by decide) group (@ReadsSuffix.absent _ 1 _ _ rfl)
      (.nil (.inl rfl))) (.more rfl d (.last (.inr rfl)))

theorem nestedPattern_reads : nestedPattern.ReadsAs nestedTree := by
  have first := @Reads.paren nestedPattern ⟨1, 40⟩ ⟨4, 40⟩ ⟨9, 41⟩ .plain _ rfl (.plain rfl rfl)
    (nestedPattern_reads_either (.inl rfl)) rfl
  have second := @Reads.paren nestedPattern ⟨11, 40⟩ ⟨12, 40⟩ ⟨17, 41⟩ (.group []) _ rfl (.group (by decide))
    (nestedPattern_reads_either (.inr rfl)) rfl
  refine ⟨⟨18, keyEof⟩, .choice (by decide) ?_ (.last (.inl rfl)), rfl⟩
  refine .cons (by decide) (by decide) (by decide) first
    (@ReadsSuffix.bounds _ 1 _ _ _ _ ⟨11, 40⟩ ⟨11, 40⟩ rfl rfl) ?_
  exact .cons (by decide) (by decide) (by decide) second
    (@ReadsSuffix.bounds _ 1 _ _ _ _ ⟨18, keyEof⟩ _ rfl rfl) (.nil (.inr (.inl rfl)))

theorem nestedPattern_loaded : ∃ parser, nestedPattern.parse 40 = .ok parser ∧ Loaded nestedExecutor parser 0 ∧
    parser.buffer = nestedCode := by
  have parsed : (nestedPattern.parse 40).toOption.map (fun s => (s.buffer, s.captureCount, s.stackCount)) =
      some (nestedCode, 4, 4) := by decide +kernel
  cases result : nestedPattern.parse 40 with
  | error fault =>
    rw [result] at parsed
    cases parsed
  | ok parser =>
    rw [result] at parsed
    obtain ⟨buffer, captures, stack⟩ : parser.buffer = nestedCode ∧ parser.captureCount = 4 ∧ parser.stackCount = 4 := by
      simpa [Except.toOption] using parsed
    have bytes : parser.bytes 0 = nestedExecutor.program.byteCode := by
      rw [Parser.bytes, buffer, captures, stack]
      rfl
    refine ⟨parser, rfl, ⟨?_, ?_, ?_⟩, buffer⟩
    · rw [bytes]
      rfl
    · rw [bytes]
      decide +kernel
    · rw [captures]
      decide

namespace Executor

/-- The state behind one instruction where the first alternative is taken. -/
def onward (e : Executor) (s : ExecState) : Option ExecState :=
  match e.effect s with
  | .next s' => some s'
  | .push _ _ s' => some s'
  | _ => none

theorem line_onward {e : Executor} (n : Nat) : ∀ {s t : ExecState}, n.repeat (· >>= e.onward) (some s) = some t →
    Line e.effect keepCaptures (fun _ => True) s t := by
  induction n with
  | zero =>
    rintro s t ⟨⟩
    exact .refl
  | succ n ih =>
    intro s t there
    obtain ⟨u, before, last⟩ := Option.bind_eq_some_iff.mp there
    rw [onward] at last
    cases is : e.effect u <;> rw [is] at last <;> cases last
    · exact .next (ih before) trivial is
    · exact .first (ih before) trivial is

/-- The groups after a match. -/
def reported (e : Executor) (fuel lastIndex : Nat) : Option (List CaptureState) :=
  match e.execute fuel lastIndex with
  | some (.finished s) => some s.captureResultList
  | _ => none

end Executor

end RegExp

end ArkRuntime
