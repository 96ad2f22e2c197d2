import ArkRuntime.RegExp.Syntax
import ArkRuntime.Misc.StatefulCall

/-!
# What the parser reads

`Reads` says which tree stands at a place of a pattern. It follows the text with the functions of
`LexerModel` and knows nothing of the code, of groups that are open or of flags that other terms have
set. A run of `RegExpParser` that ends without an error reads a tree and emits the code of this tree
(`parse_spec`).
-/

namespace ArkRuntime

namespace RegExp

/-! ## Runs of the primitives -/

theorem ran_c0 {cur cur' : Cursor} {c : Nat} : Ran c0 cur c cur' ↔ c = cur.c0 ∧ cur = cur' := ran_get

theorem ran_getPc {cur cur' : Cursor} {pc : Nat} : Ran getPc cur pc cur' ↔ pc = cur.pc ∧ cur = cur' :=
  ran_get

theorem ran_setPc {cur cur' : Cursor} {pc : Nat} {u : Unit} :
    Ran (setPc pc) cur u cur' ↔ cur' = { cur with pc := pc } := ran_update

theorem ran_parseError {α : Type} {message : String} {cur cur' : Cursor} {a : α} :
    Ran (parseError message) cur a cur' ↔ False := ⟨nofun, nofun⟩

theorem ran_outside {α : Type} {cur cur' : Cursor} {a : α} : Ran outside cur a cur' ↔ False :=
  ⟨nofun, nofun⟩

theorem ran_unfinished {α : Type} {cur cur' : Cursor} {a : α} : Ran unfinished cur a cur' ↔ False :=
  ⟨nofun, nofun⟩

theorem ran_onlyIf {σ : Type} {c : Prop} [Decidable c] {m : StateT σ (Except ParseFault) Unit} {s s' : σ}
    {u : Unit} : Ran (onlyIf c m) s u s' ↔ (c ∧ Ran m s u s') ∨ (¬ c ∧ s = s') := by
  rw [onlyIf, ran_ite, ran_pure]
  exact or_congr_right (and_congr_right fun _ => ⟨And.right, fun same => ⟨rfl, same⟩⟩)

/-- The cursor behind `Advance()`. -/
def Pattern.next (p : Pattern) (cur : Cursor) : Cursor :=
  match p.source[cur.pc]? with
  | some c => ⟨cur.pc + 1, c.toNat⟩
  | none => { cur with c0 := keyEof }

theorem ran_advance {p : Pattern} {cur cur' : Cursor} {u : Unit} :
    Ran p.advance cur u cur' ↔ cur' = p.next cur := by
  have is : p.advance = fun cur => .ok ((), p.next cur) := by
    funext cur
    unfold Pattern.advance Pattern.next
    cases p.source[cur.pc]? with
    | none => rfl
    | some c => rfl
  rw [is]
  exact ran_update

theorem ran_lex {α : Type} {m : Lex α} {s s' : Parser} {a : α} :
    Ran (lex m) s a s' ↔ ∃ cur, Ran m s.cursor a cur ∧ s' = { s with cursor := cur } := by
  have unfolded : lex m s = (m s.cursor >>= fun r => .ok (r.1, { s with cursor := r.2 })) := rfl
  unfold Ran
  rw [unfolded]
  cases m s.cursor with
  | error e =>
    constructor
    · nofun
    · nofun
  | ok r =>
    obtain ⟨b, cur⟩ := r
    constructor
    · intro ran
      cases ran
      exact ⟨cur, rfl, rfl⟩
    · rintro ⟨cur', same, rfl⟩
      cases same
      rfl

theorem ran_lex_c0 {α : Type} {f : Nat → ParserM α} {s s' : Parser} {a : α} :
    Ran (lex c0 >>= f) s a s' ↔ Ran (f s.cursor.c0) s a s' := by
  simp [ran_bind, ran_lex, ran_c0]

theorem ran_lex_advance {α : Type} {p : Pattern} {f : Unit → ParserM α} {s s' : Parser} {a : α} :
    Ran (lex p.advance >>= f) s a s' ↔ Ran (f ()) { s with cursor := p.next s.cursor } a s' := by
  simp only [ran_bind, ran_lex, ran_advance]
  constructor
  · rintro ⟨_, _, ⟨_, rfl, rfl⟩, ran⟩
    exact ran
  · intro ran
    exact ⟨(), _, ⟨_, rfl, rfl⟩, ran⟩

section Primitives

variable {s s' : Parser} {u : Unit}

theorem ran_emit {instr : Instr} :
    Ran (emit instr) s u s' ↔ s' = { s with buffer := s.buffer ++ [instr] } := ran_update

theorem ran_insertAt {pos : Nat} {instr : Instr} :
    Ran (insertAt pos instr) s u s' ↔
      s' = { s with buffer := s.buffer.take pos ++ instr :: s.buffer.drop pos } := ran_update

theorem ran_position {n : Nat} : Ran position s n s' ↔ n = s.buffer.length ∧ s = s' := ran_get

theorem ran_bytesFrom {pos n : Nat} :
    Ran (bytesFrom pos) s n s' ↔ n = codeSize (s.buffer.drop pos) ∧ s = s' := ran_get

theorem ran_getParser {r : Parser} : Ran getParser s r s' ↔ s = r ∧ s = s' :=
  ran_get.trans (and_congr_left fun _ => eq_comm)

theorem ran_setEmpty {isEmpty : Bool} :
    Ran (setEmpty isEmpty) s u s' ↔ s' = { s with isEmpty := isEmpty } := ran_update

theorem ran_countStack : Ran countStack s u s' ↔ s' = { s with stackCount := s.stackCount + 1 } := ran_update

theorem ran_countCapture {n : Nat} :
    Ran countCapture s n s' ↔
      n = s.captureCount ∧ s' = { s with captureCount := s.captureCount + 1 } := ran_ok

theorem ran_addGroupName {name : List UInt8} :
    Ran (addGroupName name) s u s' ↔ s' = { s with groupNames := s.groupNames ++ [name] } := ran_update

theorem ran_setCounted : Ran setCounted s u s' ↔ s' = { s with counted := true } := ran_update

theorem ran_emitPrev {isBackward : Bool} :
    Ran (emitPrev isBackward) s u s' ↔ s' = { s with buffer := s.buffer ++ prevCode isBackward } := by
  rw [emitPrev, ran_onlyIf, ran_emit]
  cases isBackward with
  | true => simp [prevCode]
  | false =>
    simp only [prevCode, Bool.false_eq_true, false_and, not_false_eq_true, true_and, false_or, if_false,
      List.append_nil]
    exact eq_comm

theorem ran_emitChar {value : Nat} :
    Ran (emitChar value) s u s' ↔ s' = { s with buffer := s.buffer ++ [(CharTest.char value).instr] } := by
  rw [emitChar, CharTest.instr]
  split_ifs
  · exact ran_emit
  · exact ran_emit

end Primitives

/-! ## Terms other than groups -/

namespace Pattern

variable (p : Pattern)

/-- The leaf for the character of an escape. -/
def valueLeaf (value : Nat) : Leaf :=
  if p.isIgnoreCase then
    if !p.isUtf16 then .character (.char (canonicalize p.icu.toCaseMapping value false)) true
    else .character (.range ((p.icu.closeOver value).foldl
      (fun rangeResult uc => rangeResult.insertSet (RangeSet.insert [] uc uc)) [])) false
  else .character (.char value) true

/-- A character that stands for a leaf. -/
def takeLeaf (l : Leaf) : Lex Leaf := do
  p.advance
  return l

/-- An escape from its second character on, other than `\k`. -/
def readEscape (fuel : Nat) : Lex Leaf := do
  let c ← c0
  if c = 'b'.toNat then p.takeLeaf (.assertion .wordBoundary)
  else if c = 'B'.toNat then p.takeLeaf (.assertion .notWordBoundary)
  else if c = keyEof then parseError "unexpected end"
  else if '1'.toNat ≤ c ∧ c ≤ '9'.toNat then return .reference (← p.parseDecimalDigits fuel)
  else if c = 'd'.toNat then p.takeLeaf (.character (.range rangeD) true)
  else if c = 'D'.toNat then p.takeLeaf (.character (.range32 (rangeD.invert p.isUtf16)) true)
  else if c = 's'.toNat then p.takeLeaf (.character (.range rangeS) true)
  else if c = 'S'.toNat then p.takeLeaf (.character (.range32 (rangeS.invert p.isUtf16)) true)
  else if c = 'w'.toNat then p.takeLeaf (.character (.range rangeW) true)
  else if c = 'W'.toNat then p.takeLeaf (.character (.range32 (rangeW.invert p.isUtf16)) true)
  else if c = 'P'.toNat ∨ c = 'p'.toNat then
    let (_, atomRange) ← p.parseClassEscape fuel
    return .character (.range32 atomRange) false
  else if c = 'k'.toNat then parseError "a reference by name"
  else
    match ← p.parseCharacterEscape fuel with
    | some value => return p.valueLeaf value
    | none => return .nothing

/-- A class behind its `[`. -/
def readClass (fuel : Nat) : Lex Leaf := do
  let isInvert := (← c0) == '^'.toNat
  onlyIf isInvert p.advance
  let rangeResult ← p.parseClassRanges fuel
  let rangeResult := if isInvert then rangeResult.invert p.isUtf16 else rangeResult
  return .character (if rangeResult.highestValue ≤ 0xffff then .range rangeResult
    else .range32 rangeResult) true

/-- A `PatternCharacter`. -/
def readPatternCharacter : Lex Leaf := do
  let c ← p.readCharacter
  let matchedChar := if p.isIgnoreCase then canonicalize p.icu.toCaseMapping c p.isUtf16 else c
  p.takeLeaf (.character (.char matchedChar) true)

/-- A term that is neither a group nor a reference by name. -/
def readLeaf (fuel : Nat) : Lex Leaf := do
  let c ← c0
  let bracket : Lex Leaf := do
    if p.isUtf16 then parseError "syntax error" else p.readPatternCharacter
  if c = '^'.toNat then p.takeLeaf (.assertion .lineStart)
  else if c = '$'.toNat then p.takeLeaf (.assertion .lineEnd)
  else if c = '\\'.toNat then
    p.advance
    p.readEscape fuel
  else if c = '.'.toNat then p.takeLeaf (.character (if p.isDotAll then .all else .dots) true)
  else if c = '['.toNat then
    p.advance
    p.readClass fuel
  else if c = '*'.toNat ∨ c = '+'.toNat ∨ c = '?'.toNat then parseError "nothing to repeat"
  else if c = '{'.toNat then
    let start := (← getPc) - 1
    match ← p.parserIntervalQuantifier fuel with
    | some _ => parseError "nothing to repeat"
    | none =>
        p.backTo start
        bracket
  else if c = '}'.toNat ∨ c = ']'.toNat then bracket
  else p.readPatternCharacter

end Pattern

/-- A reference by name from its `k` on. Where the name is not known yet the pattern is searched for it,
    and this can move the cursor. -/
inductive ReadsName (p : Pattern) : Cursor → List UInt8 → Option Nat → Cursor → Prop
  | intro {fuel : Nat} {cur opened before named behind : Cursor} {name : List UInt8} {pc : Nat}
      {sought : Option Nat} :
      ((p.next cur).c0 = '<'.toNat ∧ opened = p.next cur ∨
        (p.next cur).c0 ≠ '<'.toNat ∧ p.isUtf16 = true ∧ (opened = p.next cur ∨
          ∃ wanted count, Ran (p.parseCaptureCount fuel wanted) (p.next cur) count opened)) →
      Ran p.prev (p.next opened) () before →
      Ran (p.parseGroupSpecifier fuel before.pc) before (some (name, pc)) named →
      (sought = none ∧ behind = { named with pc := pc } ∨ ∃ capture, sought = some capture ∧
        Ran (p.parseCaptureCount fuel (some name)) { named with pc := pc } capture behind) →
      ReadsName p cur name sought (p.next behind)

inductive ReadsLeaf (p : Pattern) : Cursor → Leaf → Cursor → Prop
  | simple {fuel : Nat} {cur cur' : Cursor} {l : Leaf} :
      Ran (p.readLeaf fuel) cur l cur' → ReadsLeaf p cur l cur'
  | named {cur cur' : Cursor} {name : List UInt8} {sought : Option Nat} :
      cur.c0 = '\\'.toNat → (p.next cur).c0 = 'k'.toNat → ReadsName p (p.next cur) name sought cur' →
      ReadsLeaf p cur (.named name sought) cur'

/-! ## The parser follows the reading of a leaf -/

/-- The parser has gone from one place to another and has emitted some code. -/
structure Appends (s : Parser) (code : List Instr) (scope : Scope) (s' : Parser) : Prop where
  buffer : s'.buffer = s.buffer ++ code
  scope : s'.scope = scope

/-- From the state `s` on a function of the parser reads what `r` reads and emits its code. -/
def Follows {α : Type} (isBackward : Bool) (returns : Leaf → α) (s : Parser) (m : ParserM α) (r : Lex Leaf) :
    Prop :=
  ∀ a s', Ran m s a s' → ∃ l, Ran r s.cursor l s'.cursor ∧
    Appends s (l.code isBackward s.groupNames) s.scope s' ∧ a = returns l

section Follows

variable {α β : Type} {isBackward : Bool} {returns : Leaf → α} {s : Parser}

theorem follows_ite {c : Prop} [Decidable c] {m m' : ParserM α} {r r' : Lex Leaf}
    (yes : c → Follows isBackward returns s m r) (no : ¬ c → Follows isBackward returns s m' r') :
    Follows isBackward returns s (if c then m else m') (if c then r else r') := by
  split_ifs with holds
  · exact yes holds
  · exact no holds

theorem follows_ite_bind {c : Prop} [Decidable c] {m m' : ParserM β} {k : β → ParserM α} {r r' : Lex Leaf}
    (yes : c → Follows isBackward returns s (m >>= k) r)
    (no : ¬ c → Follows isBackward returns s (m' >>= k) r') :
    Follows isBackward returns s ((if c then m else m') >>= k) (if c then r else r') := by
  split_ifs with holds
  · exact yes holds
  · exact no holds

theorem follows_bind {x : Lex β} {m : β → ParserM α} {r : β → Lex Leaf}
    (rest : ∀ b cur, Ran x s.cursor b cur → Follows isBackward returns { s with cursor := cur } (m b) (r b)) :
    Follows isBackward returns s (lex x >>= m) (x >>= r) := by
  intro a s' ran
  obtain ⟨b, t, first, second⟩ := ran_bind.mp ran
  obtain ⟨cur, read, rfl⟩ := ran_lex.mp first
  obtain ⟨l, reads, ⟨buffer, scope⟩, same⟩ := rest b cur read a s' second
  exact ⟨l, ran_bind.mpr ⟨b, cur, read, reads⟩, ⟨buffer, scope⟩, same⟩

theorem follows_c0 {m : Nat → ParserM α} {r : Nat → Lex Leaf}
    (rest : Follows isBackward returns s (m s.cursor.c0) (r s.cursor.c0)) :
    Follows isBackward returns s (lex c0 >>= m) (c0 >>= r) := by
  apply follows_bind
  intro c cur read
  obtain ⟨rfl, rfl⟩ := ran_c0.mp read
  exact rest

theorem not_ran_error {message : String} {s' : Parser} {a : α} :
    ¬ Ran (lex (parseError message)) s a s' := by
  intro ran
  obtain ⟨cur, failed, -⟩ := ran_lex.mp ran
  exact ran_parseError.mp failed

end Follows

namespace Pattern

variable {p : Pattern} {fuel : Nat} {isBackward : Bool} {s : Parser}

/-! ### Decimal escapes -/

theorem ran_readAt {i c : Nat} {cur cur' : Cursor} :
    Ran (p.readAt i) cur c cur' ↔ p.byteAt i = some c ∧ cur = cur' := by
  rw [readAt]
  cases p.byteAt i with
  | none => exact ran_outside.trans ⟨nofun, nofun⟩
  | some b =>
    rw [ran_pure, Option.some.injEq]
    exact and_congr_left fun _ => eq_comm

theorem skipClass_cursor {i j : Nat} {cur cur' : Cursor} (ran : Ran (p.skipClass fuel i) cur j cur') :
    cur' = cur := by
  induction fuel generalizing i with
  | zero => exact (ran_unfinished.mp ran).elim
  | succ fuel ih =>
    rw [skipClass] at ran
    rcases ran_ite.mp ran with ⟨-, ran⟩ | ⟨-, ran⟩
    · exact ih ran
    · exact (ran_pure.mp ran).2.symm

/-- The search for a number of groups, and not for a name, does not move the cursor. -/
theorem captureCountFrom_cursor {fuel0 i k n : Nat} {cur cur' : Cursor}
    (ran : Ran (p.captureCountFrom fuel0 none fuel i k) cur n cur') : cur' = cur := by
  induction fuel generalizing i k with
  | zero => exact (ran_unfinished.mp ran).elim
  | succ fuel ih =>
    simp only [captureCountFrom, ran_ite, ran_bind, ran_readAt, ran_pure] at ran
    rcases ran with ⟨-, ran⟩ | ⟨-, -, same⟩
    · rcases ran with ⟨-, ran⟩ | ⟨-, ran⟩
      · rcases ran with ⟨-, c2, t, ⟨-, rfl⟩, ran⟩ | ⟨-, ran⟩
        · rcases ran with ⟨-, c3, t, ⟨-, rfl⟩, ran⟩ | ⟨-, ran⟩
          · rcases ran with ⟨-, ran⟩ | ⟨-, ran⟩
            · exact ih ran
            · exact ih ran
          · exact ih ran
        · exact ih ran
      · rcases ran with ⟨-, ran⟩ | ⟨-, ran⟩
        · exact ih ran
        · rcases ran with ⟨-, j, t, skipped, ran⟩ | ⟨-, ran⟩
          · have same := skipClass_cursor skipped
            subst same
            exact ih ran
          · exact ih ran
    · exact same.symm

theorem parseBackReference_follows :
    Follows isBackward (fun _ => ()) s (p.parseBackReference fuel isBackward)
      (do return .reference (← p.parseDecimalDigits fuel)) := by
  apply follows_bind
  intro capture cur _ a s' ran
  refine ⟨.reference capture, ?_⟩
  simp only [ran_bind, ran_ite, ran_lex, ran_getParser, ran_setCounted, ran_parseError, ran_emit] at ran
  obtain ⟨_, _, ⟨rfl, rfl⟩, ran⟩ := ran
  rcases ran with ⟨-, count, t, ⟨cur', counted, rfl⟩, _, t', rfl, ran⟩ | ⟨-, rfl⟩
  · rcases ran with ⟨-, _, failed, -⟩ | ⟨-, rfl⟩
    · exact failed.elim
    · rw [captureCountFrom_cursor counted]
      exact ⟨ran_pure.mpr ⟨rfl, rfl⟩, ⟨rfl, rfl⟩, rfl⟩
  · exact ⟨ran_pure.mpr ⟨rfl, rfl⟩, ⟨rfl, rfl⟩, rfl⟩

/-! ### Escapes and characters -/

/-- How `ParseAlternative` goes on with what `ParseAtomEscape` returned. -/
def finishEscape (p : Pattern) (isBackward : Bool) : Option Nat → ParserM Bool
  | some atomValue => do
      p.emitAtomValue isBackward atomValue
      return true
  | none => return true

theorem emitClassEscape_follows {instr : Instr} {test : CharTest} (is : test.instr = instr) :
    Follows isBackward (fun l => (Tree.leaf l).isAtom) s
      ((do p.emitClassEscape isBackward instr; return none) >>= p.finishEscape isBackward)
      (p.takeLeaf (.character test true)) := by
  intro b s' ran
  simp only [emitClassEscape, finishEscape, ran_bind, ran_emitPrev, ran_emit, ran_lex, ran_advance,
    ran_pure] at ran
  obtain ⟨_, _, ⟨_, _, ⟨_, _, rfl, _, _, rfl, _, _, rfl, _, rfl, rfl⟩, rfl, rfl⟩, ran⟩ := ran
  obtain ⟨rfl, rfl⟩ := ran_pure.mp ran
  refine ⟨_, ran_bind.mpr ⟨(), _, ran_advance.mpr rfl, ran_pure.mpr ⟨rfl, rfl⟩⟩, ⟨?_, rfl⟩, rfl⟩
  simp [Leaf.code, is]

theorem emitAtomValue_follows {value : Nat} :
    Follows isBackward (fun l => (Tree.leaf l).isAtom) s (p.finishEscape isBackward (some value))
      (pure (p.valueLeaf value)) := by
  intro b s' ran
  simp only [finishEscape, emitAtomValue, ran_bind, ran_ite, ran_emitPrev, ran_emitChar, ran_emit,
    ran_pure] at ran
  obtain ⟨_, _, ⟨_, _, rfl, ran⟩, rfl, rfl⟩ := ran
  refine ⟨p.valueLeaf value, ran_pure.mpr ⟨rfl, ?_⟩, ?_, ?_⟩
  · rcases ran with ⟨-, ⟨-, _, _, rfl, rfl⟩ | ⟨-, rfl⟩⟩ | ⟨-, _, _, rfl, rfl⟩ <;> rfl
  · rcases ran with ⟨fold, ⟨narrow, _, _, rfl, rfl⟩ | ⟨wide, rfl⟩⟩ | ⟨plain, _, _, rfl, rfl⟩
    · refine ⟨?_, rfl⟩
      rw [valueLeaf, if_pos fold, if_pos narrow]
      simp [Leaf.code, CharTest.instr]
    · refine ⟨?_, rfl⟩
      rw [valueLeaf, if_pos fold, if_neg wide]
      simp [Leaf.code, CharTest.instr]
    · refine ⟨?_, rfl⟩
      rw [valueLeaf, if_neg plain]
      simp [Leaf.code, CharTest.instr]
  · rw [valueLeaf]
    split_ifs <;> rfl

theorem parseBackReference_escape :
    Follows isBackward (fun l => (Tree.leaf l).isAtom) s
      ((do p.parseBackReference fuel isBackward; return none) >>= p.finishEscape isBackward)
      (do return .reference (← p.parseDecimalDigits fuel)) := by
  intro a s' ran
  obtain ⟨r, t, first, last⟩ := ran_bind.mp ran
  obtain ⟨_, t', parsed, returned⟩ := ran_bind.mp first
  obtain ⟨rfl, rfl⟩ := ran_pure.mp returned
  obtain ⟨rfl, rfl⟩ := ran_pure.mp last
  obtain ⟨l, reads, appends, -⟩ := parseBackReference_follows _ _ parsed
  refine ⟨l, reads, appends, ?_⟩
  obtain ⟨capture, cur, -, returned⟩ := ran_bind.mp reads
  obtain ⟨rfl, -⟩ := ran_pure.mp returned
  rfl

theorem parsePropertyEscape_follows :
    Follows isBackward (fun l => (Tree.leaf l).isAtom) s
      ((do
          let (_, atomRange) ← lex (p.parseClassEscape fuel)
          emitPrev isBackward
          emit (.range32 atomRange)
          return none) >>= p.finishEscape isBackward)
      (do
        let (_, atomRange) ← p.parseClassEscape fuel
        return .character (.range32 atomRange) false) := by
  rw [bind_assoc]
  apply follows_bind
  rintro ⟨value, atomRange⟩ cur - a s' ran
  simp only [finishEscape, ran_bind, ran_emitPrev, ran_emit, ran_pure] at ran
  obtain ⟨_, _, ⟨_, _, rfl, _, _, rfl, rfl, rfl⟩, ran⟩ := ran
  obtain ⟨rfl, rfl⟩ := ran_pure.mp ran
  refine ⟨_, ran_pure.mpr ⟨rfl, rfl⟩, ⟨?_, rfl⟩, rfl⟩
  simp [Leaf.code, CharTest.instr]

theorem parseAtomEscape_follows (unnamed : s.cursor.c0 ≠ 'k'.toNat) (word : s.cursor.c0 ≠ 'b'.toNat)
    (notWord : s.cursor.c0 ≠ 'B'.toNat) :
    Follows isBackward (fun l => (Tree.leaf l).isAtom) s
      (p.parseAtomEscape fuel isBackward >>= p.finishEscape isBackward) (p.readEscape fuel) := by
  rw [parseAtomEscape, readEscape, bind_assoc]
  apply follows_c0
  rw [if_neg word, if_neg notWord]
  refine follows_ite_bind (fun _ => ?_) fun _ => ?_
  · intro a s' ran
    obtain ⟨_, _, failed, -⟩ := ran_bind.mp ran
    exact (not_ran_error failed).elim
  refine follows_ite_bind (fun _ => parseBackReference_escape) fun _ => ?_
  refine follows_ite_bind (fun _ => emitClassEscape_follows rfl) fun _ => ?_
  refine follows_ite_bind (fun _ => emitClassEscape_follows rfl) fun _ => ?_
  refine follows_ite_bind (fun _ => emitClassEscape_follows rfl) fun _ => ?_
  refine follows_ite_bind (fun _ => emitClassEscape_follows rfl) fun _ => ?_
  refine follows_ite_bind (fun _ => emitClassEscape_follows rfl) fun _ => ?_
  refine follows_ite_bind (fun _ => emitClassEscape_follows rfl) fun _ => ?_
  refine follows_ite_bind (fun _ => parsePropertyEscape_follows) fun _ => ?_
  refine follows_ite_bind (fun named => absurd named unnamed) fun _ => ?_
  apply follows_bind
  intro value cur _
  cases value with
  | some value => exact emitAtomValue_follows
  | none =>
    intro a s' ran
    obtain ⟨rfl, rfl⟩ := ran_pure.mp ran
    exact ⟨.nothing, ran_pure.mpr ⟨rfl, rfl⟩, ⟨(List.append_nil _).symm, rfl⟩, rfl⟩

/-- The cursor behind the test for a `<`. -/
theorem expectName_spec {s' : Parser} {u : Unit} (ran : Ran (p.expectName fuel) s u s') :
    (s.cursor.c0 = '<'.toNat ∧ s'.cursor = s.cursor ∨
      s.cursor.c0 ≠ '<'.toNat ∧ p.isUtf16 = true ∧ (s'.cursor = s.cursor ∨
        ∃ wanted count, Ran (p.parseCaptureCount fuel wanted) s.cursor count s'.cursor)) ∧
      Appends s [] s.scope s' ∧ s'.groupNames = s.groupNames := by
  simp only [expectName, hasNamedCaptures, ran_bind, ran_ite, ran_lex, ran_c0, ran_pure, ran_getParser,
    ran_setCounted, ran_parseError] at ran
  obtain ⟨_, _, ⟨_, ⟨rfl, rfl⟩, rfl⟩, ran⟩ := ran
  have nothing : s.buffer = s.buffer ++ [] := (List.append_nil _).symm
  rcases ran with ⟨name, -, rfl⟩ | ⟨noName, ran⟩
  · exact ⟨.inl ⟨name, rfl⟩, ⟨nothing, rfl⟩, rfl⟩
  rcases ran with ⟨-, _, failed, -⟩ | ⟨wide, _, t, ran, last⟩
  · exact failed.elim
  have utf16 : p.isUtf16 = true := by simpa using wide
  obtain ⟨_, _, ⟨rfl, rfl⟩, ran⟩ := ran
  rcases ran with ⟨-, rfl, rfl⟩ | ⟨-, count, _, ⟨cur, counted, rfl⟩, _, _, rfl, rfl, rfl⟩
  · rcases last with ⟨impossible, -⟩ | ⟨-, -, rfl⟩
    · cases impossible
    · exact ⟨.inr ⟨noName, utf16, .inl rfl⟩, ⟨nothing, rfl⟩, rfl⟩
  · rcases last with ⟨impossible, -⟩ | ⟨-, -, rfl⟩
    · cases impossible
    · exact ⟨.inr ⟨noName, utf16, .inr ⟨_, count, counted⟩⟩, ⟨nothing, rfl⟩, rfl⟩

theorem nameNumber_spec {s' : Parser} {name : List UInt8} {capture : Nat}
    (ran : Ran (p.nameNumber fuel name) s capture s') :
    ∃ sought, (sought = none ∧ s'.cursor = s.cursor ∨ ∃ capture, sought = some capture ∧
        Ran (p.parseCaptureCount fuel (some name)) s.cursor capture s'.cursor) ∧
      capture = referenceNumber s.groupNames name sought ∧ Appends s [] s.scope s' := by
  have nothing : s.buffer = s.buffer ++ [] := (List.append_nil _).symm
  obtain ⟨_, _, got, ran⟩ := ran_bind.mp ran
  obtain ⟨rfl, rfl⟩ := ran_getParser.mp got
  cases found : findGroupName s.groupNames name with
  | some postion =>
    simp only [found] at ran
    obtain ⟨rfl, rfl⟩ := ran_pure.mp ran
    exact ⟨none, .inl ⟨rfl, rfl⟩, by rw [referenceNumber, found]; rfl, nothing, rfl⟩
  | none =>
    simp only [found, ran_bind, ran_lex, ran_setCounted, ran_pure] at ran
    obtain ⟨_, _, ⟨cur, counted, rfl⟩, _, _, rfl, rfl, rfl⟩ := ran
    exact ⟨some capture, .inr ⟨capture, rfl, counted⟩, by rw [referenceNumber, found]; rfl, nothing, rfl⟩

theorem parseNamedReference_spec {s' : Parser} {u : Unit}
    (ran : Ran (p.parseNamedReference fuel isBackward) s u s') :
    ∃ name sought, ReadsName p s.cursor name sought s'.cursor ∧
      Appends s ((Leaf.named name sought).code isBackward s.groupNames) s.scope s' := by
  simp only [parseNamedReference, ran_bind, ran_lex, ran_advance, ran_getPc] at ran
  obtain ⟨_, _, ⟨_, rfl, rfl⟩, _, s1, expected, _, _, ⟨_, rfl, rfl⟩, _, _, ⟨before, back, rfl⟩, read, _,
    ⟨named, ⟨_, _, ⟨rfl, rfl⟩, specified⟩, rfl⟩, ran⟩ := ran
  obtain ⟨opened, ⟨buffer1, scope1⟩, known⟩ := expectName_spec expected
  cases read with
  | none => exact (not_ran_error ran).elim
  | some found =>
    obtain ⟨name, pc⟩ := found
    simp only [ran_bind, ran_lex, ran_setPc, ran_emit, ran_advance] at ran
    obtain ⟨_, _, ⟨_, rfl, rfl⟩, capture, s2, numbered, _, _, rfl, _, rfl, rfl⟩ := ran
    obtain ⟨sought, searched, rfl, buffer2, scope2⟩ := nameNumber_spec numbered
    rw [List.append_nil] at buffer1 buffer2
    refine ⟨name, sought, .intro opened back specified searched, ⟨?_, ?_⟩⟩
    · rw [Leaf.code, referenceCode]
      simp only [buffer2, buffer1, known]
    · exact scope2.trans scope1

/-! ### All leaves -/

theorem emitAssertion_follows {instr : Instr} {assertion : Assertion} (is : assertion.instr = instr) :
    Follows isBackward (fun l => (Tree.leaf l).isAtom) s (do emit instr; lex p.advance; return false)
      (p.takeLeaf (.assertion assertion)) := by
  intro a s' ran
  simp only [ran_bind, ran_emit, ran_lex, ran_advance, ran_pure] at ran
  obtain ⟨_, _, rfl, _, _, ⟨_, rfl, rfl⟩, rfl, rfl⟩ := ran
  subst is
  exact ⟨_, ran_bind.mpr ⟨(), _, ran_advance.mpr rfl, ran_pure.mpr ⟨rfl, rfl⟩⟩, ⟨rfl, rfl⟩, rfl⟩

theorem parseEscape_follows (unnamed : (p.next s.cursor).c0 ≠ 'k'.toNat) :
    Follows isBackward (fun l => (Tree.leaf l).isAtom) s (p.parseEscape fuel isBackward)
      (do p.advance; p.readEscape fuel) := by
  apply follows_bind
  intro _ cur moved
  obtain rfl := ran_advance.mp moved
  by_cases word : (p.next s.cursor).c0 = 'b'.toNat
  · rw [readEscape]
    apply follows_c0
    simp only [if_pos word]
    exact emitAssertion_follows rfl
  by_cases notWord : (p.next s.cursor).c0 = 'B'.toNat
  · rw [readEscape]
    apply follows_c0
    simp only [if_neg word, if_pos notWord]
    exact emitAssertion_follows rfl
  intro a s' ran
  obtain ⟨c, t, first, ran⟩ := ran_bind.mp ran
  obtain ⟨_, read, rfl⟩ := ran_lex.mp first
  obtain ⟨rfl, rfl⟩ := ran_c0.mp read
  rw [if_neg word, if_neg notWord] at ran
  exact parseAtomEscape_follows unnamed word notWord a s' ran

theorem parseDot_follows :
    Follows isBackward (fun l => (Tree.leaf l).isAtom) s (do p.parseDot isBackward; return true)
      (p.takeLeaf (.character (if p.isDotAll then .all else .dots) true)) := by
  intro b s' ran
  simp only [parseDot, ran_bind, ran_emitPrev, ran_emit, ran_lex, ran_advance, ran_pure] at ran
  obtain ⟨_, _, ⟨_, _, rfl, _, _, rfl, _, _, rfl, _, rfl, rfl⟩, rfl, rfl⟩ := ran
  refine ⟨_, ran_bind.mpr ⟨(), _, ran_advance.mpr rfl, ran_pure.mpr ⟨rfl, rfl⟩⟩, ⟨?_, rfl⟩, rfl⟩
  split_ifs <;> simp [Leaf.code, CharTest.instr]

theorem parseClass_follows :
    Follows isBackward (fun l => (Tree.leaf l).isAtom) s (do p.parseClass fuel isBackward; return true)
      (do p.advance; p.readClass fuel) := by
  rw [parseClass, bind_assoc]
  apply follows_bind
  intro _ cur _ b s' ran
  simp only [ran_bind, ran_emitPrev, ran_emit, ran_onlyIf, ran_lex, ran_c0, ran_advance, ran_pure] at ran
  obtain ⟨_, _, ⟨_, _, rfl, _, _, ⟨_, ⟨rfl, rfl⟩, rfl⟩, _, t, inverted, ranges, _, ⟨cur', read, rfl⟩, _, _,
    rfl, rfl⟩, rfl, rfl⟩ := ran
  have inverted' : Ran (onlyIf ((cur.c0 == '^'.toNat) = true) p.advance) cur () t.cursor ∧
      t = { s with buffer := s.buffer ++ prevCode isBackward, cursor := t.cursor } := by
    rw [ran_onlyIf, ran_advance]
    rcases inverted with ⟨yes, _, rfl, rfl⟩ | ⟨no, rfl⟩
    · exact ⟨.inl ⟨yes, rfl⟩, rfl⟩
    · exact ⟨.inr ⟨no, rfl⟩, rfl⟩
  obtain ⟨skipped, unchanged⟩ := inverted'
  refine ⟨_, ran_bind.mpr ⟨_, cur, ran_c0.mpr ⟨rfl, rfl⟩, ran_bind.mpr ⟨(), t.cursor, skipped,
    ran_bind.mpr ⟨ranges, cur', read, ran_pure.mpr ⟨rfl, rfl⟩⟩⟩⟩, ?_, rfl⟩
  rw [unchanged]
  refine ⟨?_, rfl⟩
  split_ifs <;> simp [Leaf.code, CharTest.instr]

theorem parsePatternCharacter_follows :
    Follows isBackward (fun l => (Tree.leaf l).isAtom) s
      (do p.parsePatternCharacter isBackward; return true) p.readPatternCharacter := by
  intro b s' ran
  simp only [parsePatternCharacter, ran_bind, ran_emitPrev, ran_emitChar, ran_lex, ran_advance,
    ran_pure] at ran
  obtain ⟨_, _, ⟨_, _, rfl, c, _, ⟨cur, read, rfl⟩, _, _, rfl, _, _, rfl, _, rfl, rfl⟩, rfl, rfl⟩ := ran
  refine ⟨_, ran_bind.mpr ⟨c, cur, read, ran_bind.mpr ⟨(), _, ran_advance.mpr rfl,
    ran_pure.mpr ⟨rfl, rfl⟩⟩⟩, ⟨?_, rfl⟩, rfl⟩
  simp [Leaf.code, CharTest.instr]

theorem bracket_follows :
    Follows isBackward (fun l => (Tree.leaf l).isAtom) s
      (if p.isUtf16 then lex (parseError "syntax error")
        else do p.parsePatternCharacter isBackward; return true)
      (if p.isUtf16 then parseError "syntax error" else p.readPatternCharacter) :=
  follows_ite (fun _ _ _ ran => (not_ran_error ran).elim) fun _ => parsePatternCharacter_follows

theorem parseSimpleTerm_follows
    (unnamed : s.cursor.c0 = '\\'.toNat → (p.next s.cursor).c0 ≠ 'k'.toNat) :
    Follows isBackward (fun l => (Tree.leaf l).isAtom) s
      (p.parseSimpleTerm fuel isBackward s.cursor.c0) (p.readLeaf fuel) := by
  have start : Follows isBackward (fun l => (Tree.leaf l).isAtom) s
      (lex c0 >>= p.parseSimpleTerm fuel isBackward) (p.readLeaf fuel) := by
    apply follows_c0
    rw [parseSimpleTerm]
    refine follows_ite (fun _ => emitAssertion_follows rfl) fun _ => ?_
    refine follows_ite (fun _ => emitAssertion_follows rfl) fun _ => ?_
    refine follows_ite (fun escape => parseEscape_follows (unnamed escape)) fun _ => ?_
    refine follows_ite (fun _ => parseDot_follows) fun _ => ?_
    refine follows_ite (fun _ => parseClass_follows) fun _ => ?_
    refine follows_ite (fun _ _ _ ran => (not_ran_error ran).elim) fun _ => ?_
    refine follows_ite (fun _ => ?_) fun _ => ?_
    · refine follows_bind fun pc _ _ => follows_bind fun found _ _ => ?_
      cases found with
      | some bounds => exact fun _ _ ran => (not_ran_error ran).elim
      | none => exact follows_bind fun _ _ _ => bracket_follows
    · exact follows_ite (fun _ => bracket_follows) fun _ => parsePatternCharacter_follows
  intro a s' ran
  exact start a s' (ran_bind.mpr ⟨s.cursor.c0, s, ran_lex.mpr ⟨_, ran_c0.mpr ⟨rfl, rfl⟩, rfl⟩, ran⟩)

/-- The case `k` is reached through the other cases of the escapes. -/
theorem parseEscape_named {s' : Parser} {isAtom : Bool} (letter : (p.next s.cursor).c0 = 'k'.toNat)
    (ran : Ran (p.parseEscape fuel isBackward) s isAtom s') :
    Ran (p.parseNamedReference fuel isBackward) { s with cursor := p.next s.cursor } () s' ∧
      isAtom = true := by
  obtain ⟨_, _, moved, ran⟩ := ran_bind.mp ran
  obtain ⟨_, step, rfl⟩ := ran_lex.mp moved
  obtain rfl := ran_advance.mp step
  obtain ⟨c, _, read, ran⟩ := ran_bind.mp ran
  obtain ⟨_, is, rfl⟩ := ran_lex.mp read
  obtain ⟨rfl, rfl⟩ := ran_c0.mp is
  simp only [letter] at ran
  obtain ⟨value, t, parsed, last⟩ := ran_bind.mp ran
  obtain ⟨c', _, read', rest⟩ := ran_bind.mp parsed
  obtain ⟨_, is', rfl⟩ := ran_lex.mp read'
  obtain ⟨rfl, rfl⟩ := ran_c0.mp is'
  simp only [letter] at rest
  obtain ⟨_, t', reference, returned⟩ := ran_bind.mp rest
  obtain ⟨rfl, rfl⟩ := ran_pure.mp returned
  obtain ⟨rfl, rfl⟩ := ran_pure.mp last
  exact ⟨reference, rfl⟩

/-- Every term other than a group. -/
theorem parseSimpleTerm_spec {s' : Parser} {isAtom : Bool}
    (ran : Ran (p.parseSimpleTerm fuel isBackward s.cursor.c0) s isAtom s') :
    ∃ l, ReadsLeaf p s.cursor l s'.cursor ∧ Appends s (l.code isBackward s.groupNames) s.scope s' ∧
      isAtom = (Tree.leaf l).isAtom := by
  by_cases named : s.cursor.c0 = '\\'.toNat ∧ (p.next s.cursor).c0 = 'k'.toNat
  · obtain ⟨escape, letter⟩ := named
    have escaped : Ran (p.parseEscape fuel isBackward) s isAtom s' := by
      rw [parseSimpleTerm, escape] at ran
      exact ran
    obtain ⟨parsed, atom⟩ := parseEscape_named letter escaped
    obtain ⟨name, sought, reads, appends⟩ := parseNamedReference_spec parsed
    exact ⟨.named name sought, .named escape letter reads, ⟨appends.buffer, appends.scope⟩, atom⟩
  · obtain ⟨l, reads, appends, same⟩ :=
      parseSimpleTerm_follows (fun escape letter => named ⟨escape, letter⟩) isAtom s' ran
    exact ⟨l, .simple reads, appends, same⟩

end Pattern

/-! ## Quantifiers -/

/-- What stands behind a term, for an atom or for another term. -/
inductive ReadsSuffix (p : Pattern) : Bool → Cursor → Suffix → Cursor → Prop
  | unread {cur : Cursor} : ReadsSuffix p false cur .kept cur
  | brace {fuel : Nat} {cur cur' : Cursor} :
      Ran (p.readQuantifier fuel) cur .brace cur' → ReadsSuffix p true cur .kept cur'
  | absent {fuel : Nat} {cur cur' : Cursor} :
      Ran (p.readQuantifier fuel) cur .absent cur' → ReadsSuffix p true cur .once cur'
  | bounds {fuel min max : Nat} {isGreedy : Bool} {cur between cur' : Cursor} :
      Ran (p.readQuantifier fuel) cur (.bounds min max) between →
      Ran p.readGreedy between isGreedy cur' →
      ReadsSuffix p true cur (.bounds min max isGreedy) cur'

theorem insert_append {base rest : List Instr} {instr : Instr} :
    (base ++ rest).take base.length ++ instr :: (base ++ rest).drop base.length =
      base ++ instr :: rest := by
  rw [List.take_left, List.drop_left]

theorem codeSize_cons (instr : Instr) (code : List Instr) :
    codeSize (instr :: code) = instr.size + codeSize code := by
  rw [codeSize, List.map_cons, List.sum_cons]
  rfl

theorem codeSize_append (code code' : List Instr) :
    codeSize (code ++ code') = codeSize code + codeSize code' := by
  rw [codeSize, List.map_append, List.sum_append]
  rfl

namespace Pattern

variable {p : Pattern} {fuel : Nat} {isBackward : Bool} {s : Parser}

/-- The code of an atom, which begins behind `base`, becomes the code of its iterations. -/
theorem emitQuantifier_spec {first last min max : Nat} {isGreedy : Bool} {s' : Parser} {u : Unit}
    {base body : List Instr} (is : s.buffer = base ++ body)
    (ran : Ran (emitQuantifier base.length first last min max isGreedy) s u s') :
    s' = { s with
      buffer := base ++ quantifierCode first last min max isGreedy body
      stackCount := s.stackCount + (if max = int32Max then 2 else 1) } := by
  have after (rest : List Instr) : base ++ Instr.push :: rest = (base ++ [.push]) ++ rest := by simp
  have length : base.length + 1 = (base ++ [Instr.push]).length := by simp
  simp only [emitQuantifier, ran_bind, ran_countStack, ran_insertAt, ran_onlyIf, ran_emit, ran_bytesFrom]
    at ran
  obtain ⟨_, _, rfl, _, _, rfl, _, t1, reset, _, t2, advance, _, _, ⟨rfl, rfl⟩, _, _, rfl, _, t3, split,
    rfl⟩ := ran
  have reset' : t1 = { s with
      stackCount := s.stackCount + 1
      buffer := (base ++ [.push]) ++ ((if first ≠ 0 then [.saveReset first last] else []) ++ body) } := by
    rcases reset with ⟨yes, rfl⟩ | ⟨no, rfl⟩
    · rw [if_pos yes]
      simp only [is, insert_append]
      rw [after, length, insert_append]
      rfl
    · rw [if_neg no]
      simp only [is, insert_append]
      rw [after]
      rfl
  have advance' : t2 = { s with
      stackCount := s.stackCount + (if max = int32Max then 2 else 1)
      buffer := (base ++ [.push]) ++ iterationCode first last max body } := by
    rw [iterationCode]
    rcases advance with ⟨yes, _, _, rfl, _, _, rfl, rfl⟩ | ⟨no, rfl⟩
    · rw [if_pos yes, if_pos yes, if_pos yes, reset']
      simp only
      rw [length, insert_append]
      simp [Nat.add_assoc]
    · rw [if_neg no, if_neg no, if_neg no, reset']
      simp
  have looped : (base ++ [Instr.push]) ++ iterationCode first last max body ++
      [if isGreedy then .loopGreedy (backOffset (codeSize (iterationCode first last max body))) min max
        else .loop (backOffset (codeSize (iterationCode first last max body))) min max] =
      (base ++ [.push]) ++ loopCode first last min max isGreedy body := by
    rw [loopCode, loopInstr, List.append_assoc]
  rw [advance', length] at split
  simp only [List.drop_left] at split
  rw [← backOffset, looped] at split
  rw [quantifierCode]
  rcases split with ⟨zero, _, _, ⟨rfl, rfl⟩, rfl⟩ | ⟨more, rfl⟩
  · rw [if_pos zero]
    simp only [List.drop_left, List.take_left]
    simp [splitInstr]
  · rw [if_neg more]
    simp

theorem parseQuantifier_spec {first : Nat} {s' : Parser} {u : Unit} {base body : List Instr}
    (is : s.buffer = base ++ body)
    (ran : Ran (p.parseQuantifier fuel base.length first (s.captureCount - 1)) s u s') :
    ∃ suffix, ReadsSuffix p true s.cursor suffix s'.cursor ∧
      s'.buffer = base ++ suffix.code first body s.scope ∧ s'.scope = suffix.scope s.scope := by
  obtain ⟨quantifier, _, lexed, ran⟩ := ran_bind.mp ran
  obtain ⟨cur, read, rfl⟩ := ran_lex.mp lexed
  cases quantifier with
  | brace =>
    obtain ⟨-, rfl⟩ := ran_pure.mp ran
    exact ⟨.kept, .brace read, is, rfl⟩
  | absent =>
    obtain rfl := ran_setEmpty.mp ran
    exact ⟨.once, .absent read, is, rfl⟩
  | bounds min max =>
    simp only [ran_bind, ran_lex, ran_getParser, ran_onlyIf, ran_setEmpty] at ran
    obtain ⟨isGreedy, _, ⟨cur', greedy, rfl⟩, _, _, ⟨rfl, rfl⟩, _, t, emitted, rfl⟩ := ran
    refine ⟨.bounds min max isGreedy, ?_⟩
    rcases emitted with ⟨full, emitted⟩ | ⟨empty, rfl⟩
    · have full' : s.isEmpty = false := full
      obtain rfl := emitQuantifier_spec (by exact is) emitted
      refine ⟨.bounds read greedy, ?_⟩
      simp [Suffix.code, Suffix.scope, Parser.scope, full']
    · have empty' : s.isEmpty = true := by simpa using empty
      refine ⟨.bounds read greedy, ?_⟩
      simp [Suffix.code, Suffix.scope, Parser.scope, empty', is]

theorem ran_moveTerm {base front body : List Instr} {s' : Parser} {u : Unit}
    (is : s.buffer = base ++ front ++ body) :
    Ran (moveTerm base.length (base ++ front).length) s u s' ↔
      s' = { s with buffer := base ++ (body ++ front) } := by
  have moved : s.buffer.take base.length ++ s.buffer.drop (base ++ front).length ++
      (s.buffer.drop base.length).take ((base ++ front).length - base.length) =
        base ++ (body ++ front) := by
    rw [is, List.drop_left, List.append_assoc base front body, List.take_left, List.drop_left,
      List.length_append, Nat.add_sub_cancel_left, List.take_left, List.append_assoc]
  rw [← moved]
  exact ran_update

/-- The end of a round of `ParseAlternative`: what stands behind the term is read, and in a look behind
    the code of the term is moved before the code of the terms in front of it. -/
theorem finishTerm_spec {isAtom : Bool} {first : Nat} {s' : Parser} {u : Unit}
    {base front body : List Instr} (is : s.buffer = base ++ front ++ body)
    (ran : Ran (p.finishTerm fuel isBackward isAtom base.length (base ++ front).length first) s u s') :
    ∃ suffix, ReadsSuffix p isAtom s.cursor suffix s'.cursor ∧
      s'.buffer = base ++ (if isBackward then suffix.code first body s.scope ++ front
        else front ++ suffix.code first body s.scope) ∧
      s'.scope = suffix.scope s.scope := by
  obtain ⟨_, t, quantified, moved⟩ := ran_bind.mp ran
  have read : ∃ suffix, ReadsSuffix p isAtom s.cursor suffix t.cursor ∧
      t.buffer = base ++ front ++ suffix.code first body s.scope ∧ t.scope = suffix.scope s.scope := by
    rcases ran_onlyIf.mp quantified with ⟨rfl, quantified⟩ | ⟨no, rfl⟩
    · obtain ⟨_, _, got, parsed⟩ := ran_bind.mp quantified
      obtain ⟨rfl, rfl⟩ := ran_getParser.mp got
      exact parseQuantifier_spec is parsed
    · obtain rfl : isAtom = false := by simpa using no
      exact ⟨.kept, .unread, is, rfl⟩
  obtain ⟨suffix, reads, buffer, scope⟩ := read
  rcases ran_onlyIf.mp moved with ⟨backward, moved⟩ | ⟨forward, rfl⟩
  · obtain rfl := (ran_moveTerm buffer).mp moved
    exact ⟨suffix, reads, by rw [if_pos backward], scope⟩
  · exact ⟨suffix, reads, by rw [if_neg forward, buffer, List.append_assoc], scope⟩

end Pattern

/-! ## The whole pattern -/

/-- What is read at a place. -/
inductive Kind where
  | term
  | alternative
  /-- The rest of a disjunction whose first alternatives are `left`. -/
  | others (left : Tree)
  | disjunction

/-- The name of a group, from the character behind its `<` on. -/
def ReadsGroupName (p : Pattern) (cur : Cursor) (name : List UInt8) (cur' : Cursor) : Prop :=
  ∃ fuel before named pc, Ran p.prev cur () before ∧
    Ran (p.parseGroupSpecifier fuel before.pc) before (some (name, pc)) named ∧
    cur' = p.next { named with pc := pc }

/-- Where the body of a group or of a look around begins, from the character behind its `(` on. -/
inductive Opens (p : Pattern) : Cursor → (Tree → Tree) → Cursor → Prop
  | group {cur : Cursor} : cur.c0 ≠ '?'.toNat → Opens p cur (.group []) cur
  | named {cur cur' : Cursor} {name : List UInt8} : cur.c0 = '?'.toNat → (p.next cur).c0 = '<'.toNat →
      (p.next (p.next cur)).c0 ≠ '='.toNat → (p.next (p.next cur)).c0 ≠ '!'.toNat →
      ReadsGroupName p (p.next (p.next cur)) name cur' → Opens p cur (.group name) cur'
  | plain {cur : Cursor} : cur.c0 = '?'.toNat → (p.next cur).c0 = ':'.toNat →
      Opens p cur .plain (p.next (p.next cur))
  | ahead {cur : Cursor} {negative : Bool} : cur.c0 = '?'.toNat →
      (p.next cur).c0 = (if negative then '!' else '=').toNat →
      Opens p cur (.look false negative) (p.next (p.next cur))
  | behind {cur : Cursor} {negative : Bool} : cur.c0 = '?'.toNat → (p.next cur).c0 = '<'.toNat →
      (p.next (p.next cur)).c0 = (if negative then '!' else '=').toNat →
      Opens p cur (.look true negative) (p.next (p.next (p.next cur)))

/-- The tree between two places of a pattern. -/
inductive Reads (p : Pattern) : Kind → Cursor → Tree → Cursor → Prop
  | leaf {cur cur' : Cursor} {l : Leaf} : cur.c0 ≠ '('.toNat → ReadsLeaf p cur l cur' →
      Reads p .term cur (.leaf l) cur'
  | paren {cur opened closed : Cursor} {wrap : Tree → Tree} {body : Tree} : cur.c0 = '('.toNat →
      Opens p (p.next cur) wrap opened → Reads p .disjunction opened body closed →
      closed.c0 = ')'.toNat → Reads p .term cur (wrap body) (p.next closed)
  | nil {cur : Cursor} : cur.c0 = '|'.toNat ∨ cur.c0 = keyEof ∨ cur.c0 = ')'.toNat →
      Reads p .alternative cur .nil cur
  | cons {cur cur₁ cur₂ cur₃ : Cursor} {term rest : Tree} {suffix : Suffix} :
      cur.c0 ≠ '|'.toNat → cur.c0 ≠ keyEof → cur.c0 ≠ ')'.toNat → Reads p .term cur term cur₁ →
      ReadsSuffix p term.isAtom cur₁ suffix cur₂ → Reads p .alternative cur₂ rest cur₃ →
      Reads p .alternative cur (.cons term suffix rest) cur₃
  | last {cur : Cursor} {left : Tree} : cur.c0 = keyEof ∨ cur.c0 = ')'.toNat →
      Reads p (.others left) cur left cur
  | more {cur cur₁ cur₂ : Cursor} {left right t : Tree} : cur.c0 = '|'.toNat →
      Reads p .alternative (p.next cur) right cur₁ → Reads p (.others (.alt left right)) cur₁ t cur₂ →
      Reads p (.others left) cur t cur₂
  | void {cur : Cursor} : cur.c0 = ')'.toNat → Reads p .disjunction cur .void cur
  | choice {cur cur₁ cur₂ : Cursor} {left t : Tree} : cur.c0 ≠ ')'.toNat →
      Reads p .alternative cur left cur₁ → Reads p (.others left) cur₁ t cur₂ →
      Reads p .disjunction cur t cur₂

theorem Reads.ends {p : Pattern} {kind : Kind} {cur cur' : Cursor} {t : Tree} (reads : Reads p kind cur t cur') :
    match kind with
    | .term => True
    | .alternative => cur'.c0 = '|'.toNat ∨ cur'.c0 = keyEof ∨ cur'.c0 = ')'.toNat
    | .others _ => cur'.c0 = keyEof ∨ cur'.c0 = ')'.toNat
    | .disjunction => cur'.c0 = keyEof ∨ cur'.c0 = ')'.toNat := by
  induction reads with
  | leaf _ _ => trivial
  | paren _ _ _ _ _ => trivial
  | nil ended => exact ended
  | cons _ _ _ _ _ _ _ ih => exact ih
  | last ended => exact ended
  | more _ _ _ _ ih => exact ih
  | void closed => exact .inr closed
  | choice _ _ _ _ ih => exact ih

namespace Pattern

variable {p : Pattern} {fuel : Nat}

/-- The functions of the descent read a tree and emit its code. In `ParseAlternative` some terms may have
    been parsed before; `front` is their code. -/
structure Specified (p : Pattern) (fuel : Nat) : Prop where
  disjunction : ∀ (isBackward : Bool) (s : Parser) (u : Unit) (s' : Parser),
    Ran (p.parseDisjunction fuel isBackward) s u s' →
      ∃ t, Reads p .disjunction s.cursor t s'.cursor ∧
        Appends s (t.compile isBackward s.scope) (t.scope s.scope) s'
  others : ∀ (isBackward : Bool) (s : Parser) (u : Unit) (s' : Parser) (base : List Instr) (left : Tree)
    (scope : Scope), s.buffer = base ++ left.compile isBackward scope → s.scope = left.scope scope →
    Ran (p.parseAlternatives fuel isBackward base.length) s u s' →
      ∃ t, Reads p (.others left) s.cursor t s'.cursor ∧ s'.buffer = base ++ t.compile isBackward scope ∧
        s'.scope = t.scope scope
  alternative : ∀ (isBackward : Bool) (s : Parser) (u : Unit) (s' : Parser) (base front : List Instr),
    s.buffer = base ++ front → Ran (p.parseAlternative fuel isBackward base.length) s u s' →
      ∃ t, Reads p .alternative s.cursor t s'.cursor ∧
        s'.buffer = base ++ (if isBackward then t.compile isBackward s.scope ++ front
          else front ++ t.compile isBackward s.scope) ∧
        s'.scope = t.scope s.scope
  capture : ∀ (isBackward : Bool) (s : Parser) (r : Bool × Nat) (s' : Parser),
    Ran (p.parseAssertionCapture fuel isBackward false 0) s r s' →
      ∃ wrap body opened, Opens p s.cursor wrap opened ∧ Reads p .disjunction opened body s'.cursor ∧
        s'.cursor.c0 = ')'.toNat ∧
        Appends s ((wrap body).compile isBackward s.scope) ((wrap body).scope s.scope) s' ∧
        r = ((wrap body).isAtom, (wrap body).captureIndex s.captureCount)

theorem disjunction_step (spec : Specified p fuel) (isBackward : Bool) (s : Parser) (u : Unit)
    (s' : Parser) (ran : Ran (p.parseDisjunction (fuel + 1) isBackward) s u s') :
    ∃ t, Reads p .disjunction s.cursor t s'.cursor ∧
      Appends s (t.compile isBackward s.scope) (t.scope s.scope) s' := by
  simp only [parseDisjunction, ran_bind, ran_ite, ran_lex, ran_c0, ran_setEmpty, ran_position] at ran
  obtain ⟨_, _, ⟨_, ⟨rfl, rfl⟩, rfl⟩, ran⟩ := ran
  rcases ran with ⟨closed, rfl⟩ | ⟨inside, _, _, ⟨rfl, rfl⟩, _, t1, first, others⟩
  · exact ⟨.void, .void closed, ⟨(List.append_nil _).symm, rfl⟩⟩
  · obtain ⟨left, reads, buffer, scope⟩ := spec.alternative isBackward s () t1 s.buffer []
      (List.append_nil _).symm first
    have buffer' : t1.buffer = s.buffer ++ left.compile isBackward s.scope := by
      rw [buffer]
      split_ifs <;> simp
    obtain ⟨t, reads', buffer, scope⟩ := spec.others isBackward t1 u s' s.buffer left s.scope buffer' scope
      others
    exact ⟨t, .choice inside reads reads', ⟨buffer, scope⟩⟩

/-- The `GOTO` behind `code` is told how much has been emitted behind it. -/
theorem ran_updateGoto {s s' : Parser} {u : Unit} {code rest : List Instr} {instr : Instr}
    (is : s.buffer = code ++ [instr] ++ rest) :
    Ran (updateGoto code.length) s u s' ↔
      s' = { s with buffer := code ++ .goto (codeSize rest) :: rest } := by
  have updated : s.buffer.set code.length (.goto (codeSize (s.buffer.drop (code.length + 1)))) =
      code ++ .goto (codeSize rest) :: rest := by
    have length : code.length + 1 = (code ++ [instr]).length := by simp
    rw [is, length, List.drop_left, List.append_assoc, List.set_append_right _ _ (Nat.le_refl _),
      Nat.sub_self]
    rfl
  rw [← updated]
  exact ran_update

/-- One more alternative, behind a `|`. -/
theorem bar_spec (spec : Specified p fuel) {isBackward : Bool} {s : Parser} {u : Unit} {s' : Parser}
    {base : List Instr} {left : Tree} {scope : Scope} (is : s.buffer = base ++ left.compile isBackward scope)
    (known : s.scope = left.scope scope)
    (ran : Ran (do
      let len ← bytesFrom base.length
      insertAt base.length (.splitNext (len + 5))
      let pos ← position
      emit (.goto 0)
      lex p.advance
      let start' ← position
      p.parseAlternative fuel isBackward start'
      updateGoto pos) s u s') :
    ∃ right, Reads p .alternative (p.next s.cursor) right s'.cursor ∧
      s'.buffer = base ++ (left.alt right).compile isBackward scope ∧
      s'.scope = (left.alt right).scope scope := by
  simp only [ran_bind, ran_bytesFrom, ran_insertAt, ran_position, ran_emit, ran_lex, ran_advance] at ran
  obtain ⟨_, _, ⟨rfl, rfl⟩, _, _, rfl, _, _, ⟨rfl, rfl⟩, _, _, rfl, _, _, ⟨_, rfl, rfl⟩, _, _, ⟨rfl, rfl⟩,
    _, t, parsed, updated⟩ := ran
  simp only [is, List.drop_left, List.take_left] at parsed updated
  obtain ⟨right, reads, buffer, scope'⟩ := spec.alternative isBackward _ _ t _ []
    (by exact (List.append_nil _).symm) parsed
  have buffer' : t.buffer = base ++ .splitNext (codeSize (left.compile isBackward scope) + 5) ::
      left.compile isBackward scope ++ [.goto 0] ++ right.compile isBackward (left.scope scope) := by
    rw [buffer, ← known]
    split_ifs <;> simp [Parser.scope]
  obtain rfl := (ran_updateGoto buffer').mp updated
  refine ⟨right, reads, ?_, ?_⟩
  · simp [Tree.compile, altCode]
  · rw [Tree.scope, ← known]
    exact scope'

theorem others_step (spec : Specified p fuel) (isBackward : Bool) (s : Parser) (u : Unit) (s' : Parser)
    (base : List Instr) (left : Tree) (scope : Scope) (is : s.buffer = base ++ left.compile isBackward scope)
    (known : s.scope = left.scope scope)
    (ran : Ran (p.parseAlternatives (fuel + 1) isBackward base.length) s u s') :
    ∃ t, Reads p (.others left) s.cursor t s'.cursor ∧ s'.buffer = base ++ t.compile isBackward scope ∧
      s'.scope = t.scope scope := by
  rw [parseAlternatives] at ran
  obtain ⟨c, _, lexed, ran⟩ := ran_bind.mp ran
  obtain ⟨_, read, rfl⟩ := ran_lex.mp lexed
  obtain ⟨rfl, rfl⟩ := ran_c0.mp read
  obtain ⟨_, t1, barred, ran⟩ := ran_bind.mp ran
  obtain ⟨_, _, lexed', ran⟩ := ran_bind.mp ran
  obtain ⟨_, read', rfl⟩ := ran_lex.mp lexed'
  obtain ⟨rfl, rfl⟩ := ran_c0.mp read'
  rcases ran_onlyIf.mp barred with ⟨bar, barred⟩ | ⟨noBar, rfl⟩
  · obtain ⟨right, reads, buffer, scope'⟩ := bar_spec spec (by exact is) (by exact known) barred
    rcases ran_onlyIf.mp ran with ⟨-, ran⟩ | ⟨ended, rfl⟩
    · obtain ⟨t, reads', buffer, scope'⟩ := spec.others isBackward _ u s' base (left.alt right) scope
        (by exact buffer) (by exact scope') ran
      exact ⟨t, .more bar reads reads', buffer, scope'⟩
    · exact ⟨left.alt right, .more bar reads (.last (by tauto)), buffer, scope'⟩
  · rcases ran_onlyIf.mp ran with ⟨-, ran⟩ | ⟨ended, rfl⟩
    · exact spec.others isBackward _ u s' base left scope is known ran
    · exact ⟨left, .last (by tauto), is, known⟩

/-- A term, without what follows it. -/
theorem term_spec (spec : Specified p fuel) {isBackward : Bool} {s s' : Parser} {r : Bool × Nat}
    (ran : Ran (if s.cursor.c0 = '('.toNat then do
        lex p.advance
        let r ← p.parseAssertionCapture fuel isBackward false 0
        lex p.advance
        return r
      else do
        let isAtom ← p.parseSimpleTerm fuel isBackward s.cursor.c0
        return (isAtom, 0)) s r s') :
    ∃ term, Reads p .term s.cursor term s'.cursor ∧
      Appends s (term.compile isBackward s.scope) (term.scope s.scope) s' ∧
      r = (term.isAtom, term.captureIndex s.captureCount) := by
  rcases ran_ite.mp ran with ⟨paren, ran⟩ | ⟨noParen, ran⟩
  · simp only [ran_bind, ran_lex, ran_advance, ran_pure] at ran
    obtain ⟨_, _, ⟨_, rfl, rfl⟩, _, t, captured, _, _, ⟨_, rfl, rfl⟩, rfl, rfl⟩ := ran
    obtain ⟨wrap, body, opened, opens, reads, closed, ⟨buffer, scope⟩, rfl⟩ :=
      spec.capture isBackward _ _ t captured
    exact ⟨wrap body, .paren paren opens reads closed, ⟨buffer, scope⟩, rfl⟩
  · obtain ⟨isAtom, t, parsed, returned⟩ := ran_bind.mp ran
    obtain ⟨rfl, rfl⟩ := ran_pure.mp returned
    obtain ⟨l, reads, appends, rfl⟩ := parseSimpleTerm_spec parsed
    exact ⟨.leaf l, .leaf noParen reads, appends, rfl⟩

theorem alternative_step (spec : Specified p fuel) (isBackward : Bool) (s : Parser) (u : Unit)
    (s' : Parser) (base front : List Instr) (is : s.buffer = base ++ front)
    (ran : Ran (p.parseAlternative (fuel + 1) isBackward base.length) s u s') :
    ∃ t, Reads p .alternative s.cursor t s'.cursor ∧
      s'.buffer = base ++ (if isBackward then t.compile isBackward s.scope ++ front
        else front ++ t.compile isBackward s.scope) ∧
      s'.scope = t.scope s.scope := by
  rw [parseAlternative] at ran
  obtain ⟨c, _, lexed, ran⟩ := ran_bind.mp ran
  obtain ⟨_, read, rfl⟩ := ran_lex.mp lexed
  obtain ⟨rfl, rfl⟩ := ran_c0.mp read
  rcases ran_onlyIf.mp ran with ⟨⟨noBar, more, inside⟩, ran⟩ | ⟨ended, rfl⟩
  · obtain ⟨_, _, placed, ran⟩ := ran_bind.mp ran
    obtain ⟨rfl, rfl⟩ := ran_position.mp placed
    obtain ⟨⟨isAtom, first⟩, t1, parsed, ran⟩ := ran_bind.mp ran
    obtain ⟨_, t2, finished, again⟩ := ran_bind.mp ran
    obtain ⟨term, reads, ⟨buffer, scope⟩, same⟩ := term_spec spec parsed
    obtain ⟨rfl, rfl⟩ := Prod.mk.inj same
    have placed' : s.buffer.length = (base ++ front).length := by rw [is]
    simp only [placed'] at finished
    obtain ⟨suffix, follows, buffer', scope'⟩ := finishTerm_spec (by rw [buffer, is]) finished
    obtain ⟨rest, reads', buffer'', scope''⟩ := spec.alternative isBackward t2 u s' base _ buffer' again
    refine ⟨.cons term suffix rest, .cons noBar more inside reads follows reads', ?_, ?_⟩
    · rw [buffer'', scope', scope, Tree.compile]
      split_ifs <;> simp [Parser.scope]
    · rw [scope'', scope', scope, Tree.scope]
  · refine ⟨.nil, .nil (by tauto), ?_, rfl⟩
    rw [Tree.compile]
    simpa using is

/-- The group or the look around of which `ParseAssertionCapture` reads the opening. -/
theorem parseGroupName_spec {s s' : Parser} {u : Unit} (ran : Ran (p.parseGroupName fuel) s u s') :
    ∃ name, ReadsGroupName p s.cursor name s'.cursor ∧
      Appends s [] { s.scope with groupNames := s.groupNames ++ [name] } s' := by
  simp only [parseGroupName, ran_bind, ran_lex, ran_getPc] at ran
  obtain ⟨_, _, ⟨before, back, rfl⟩, read, _, ⟨named, ⟨_, _, ⟨rfl, rfl⟩, specified⟩, rfl⟩, ran⟩ := ran
  cases read with
  | none => exact (not_ran_error ran).elim
  | some found =>
    obtain ⟨name, pc⟩ := found
    simp only [ran_bind, ran_lex, ran_setPc, ran_getParser, ran_ite, ran_addGroupName, ran_advance] at ran
    obtain ⟨_, _, ⟨_, rfl, rfl⟩, _, _, ⟨rfl, rfl⟩, ran⟩ := ran
    rcases ran with ⟨-, _, failed, -⟩ | ⟨-, _, _, rfl, _, rfl, rfl⟩
    · exact (ran_parseError.mp failed).elim
    · exact ⟨name, ⟨fuel, before, named, pc, back, specified, rfl⟩, (List.append_nil _).symm, rfl⟩

theorem capture_spec (spec : Specified p fuel) {isBackward : Bool} {s s' : Parser} {r : Bool × Nat}
    (ran : Ran (do
      let captureIndex ← countCapture
      emit (if isBackward then .saveEnd captureIndex else .saveStart captureIndex)
      p.parseDisjunction fuel isBackward
      emit (if isBackward then .saveStart captureIndex else .saveEnd captureIndex)
      return (true, captureIndex)) s r s') :
    ∃ body, Reads p .disjunction s.cursor body s'.cursor ∧
      Appends s (groupCode s.captureCount isBackward
          (body.compile isBackward { s.scope with captureCount := s.captureCount + 1 }))
        (body.scope { s.scope with captureCount := s.captureCount + 1 }) s' ∧
      r = (true, s.captureCount) := by
  simp only [ran_bind, ran_countCapture, ran_emit, ran_pure] at ran
  obtain ⟨_, _, ⟨rfl, rfl⟩, _, _, rfl, _, t, parsed, _, _, rfl, rfl, rfl⟩ := ran
  obtain ⟨body, reads, buffer, scope⟩ := spec.disjunction isBackward _ _ t parsed
  refine ⟨body, reads, ⟨?_, scope⟩, rfl⟩
  simp only [buffer]
  simp [groupCode, Parser.scope]

theorem look_spec (spec : Specified p fuel) {direction negative isAtom : Bool} {captureIndex : Nat}
    {s s' : Parser} {r : Bool × Nat}
    (ran : Ran (do
      lex p.advance
      let start ← position
      p.parseDisjunction fuel direction
      emitLook start negative
      return (isAtom, captureIndex)) s r s') :
    ∃ body, Reads p .disjunction (p.next s.cursor) body s'.cursor ∧
      Appends s (lookCode negative (body.compile direction s.scope)) (body.scope s.scope) s' ∧
      r = (isAtom, captureIndex) := by
  simp only [emitLook, ran_bind, ran_lex, ran_advance, ran_position, ran_emit, ran_bytesFrom, ran_insertAt,
    ran_pure] at ran
  obtain ⟨_, _, ⟨_, rfl, rfl⟩, _, _, ⟨rfl, rfl⟩, _, t, parsed, _, _, ⟨_, _, rfl, _, _, ⟨rfl, rfl⟩, rfl⟩, rfl,
    rfl⟩ := ran
  obtain ⟨body, reads, buffer, scope⟩ := spec.disjunction direction _ _ t parsed
  refine ⟨body, reads, ⟨?_, scope⟩, rfl⟩
  simp only [buffer, List.append_assoc, List.take_left, List.drop_left, lookCode, codeSize_append]
  rfl

/-- What one round of the loop of `ParseAssertionCapture` leaves. -/
def Wrapped (p : Pattern) (isBackward : Bool) (s : Parser) (r : Bool × Nat) (s' : Parser) : Prop :=
  ∃ wrap body opened, Opens p s.cursor wrap opened ∧ Reads p .disjunction opened body s'.cursor ∧
    Appends s ((wrap body).compile isBackward s.scope) ((wrap body).scope s.scope) s' ∧
    r = ((wrap body).isAtom, (wrap body).captureIndex s.captureCount)

theorem capture_step (spec : Specified p fuel) (isBackward : Bool) (s : Parser) (r : Bool × Nat)
    (s' : Parser) (ran : Ran (p.parseAssertionCapture (fuel + 1) isBackward false 0) s r s') :
    ∃ wrap body opened, Opens p s.cursor wrap opened ∧ Reads p .disjunction opened body s'.cursor ∧
      s'.cursor.c0 = ')'.toNat ∧
      Appends s ((wrap body).compile isBackward s.scope) ((wrap body).scope s.scope) s' ∧
      r = ((wrap body).isAtom, (wrap body).captureIndex s.captureCount) := by
  rw [parseAssertionCapture] at ran
  obtain ⟨round, t, parsed, ran⟩ := ran_bind.mp (ran_lex_c0.mp ran)
  have wrapped : Wrapped p isBackward s round t := by
    rcases ran_ite.mp parsed with ⟨mark, parsed⟩ | ⟨noMark, parsed⟩
    · replace parsed := ran_lex_c0.mp (ran_lex_advance.mp parsed)
      rcases ran_ite.mp parsed with ⟨ahead, parsed⟩ | ⟨-, parsed⟩
      · obtain ⟨body, reads, ⟨buffer, scope⟩, rfl⟩ := look_spec spec parsed
        exact ⟨.look false false, body, _, .ahead mark ahead, reads, ⟨buffer, scope⟩, rfl⟩
      rcases ran_ite.mp parsed with ⟨ahead, parsed⟩ | ⟨-, parsed⟩
      · obtain ⟨body, reads, ⟨buffer, scope⟩, rfl⟩ := look_spec spec parsed
        exact ⟨.look false true, body, _, .ahead mark ahead, reads, ⟨buffer, scope⟩, rfl⟩
      rcases ran_ite.mp parsed with ⟨angle, parsed⟩ | ⟨-, parsed⟩
      · replace parsed := ran_lex_c0.mp (ran_lex_advance.mp parsed)
        rcases ran_ite.mp parsed with ⟨behind, parsed⟩ | ⟨notEqual, parsed⟩
        · obtain ⟨body, reads, ⟨buffer, scope⟩, rfl⟩ := look_spec spec parsed
          exact ⟨.look true false, body, _, .behind mark angle behind, reads, ⟨buffer, scope⟩, rfl⟩
        rcases ran_ite.mp parsed with ⟨behind, parsed⟩ | ⟨notBang, parsed⟩
        · obtain ⟨body, reads, ⟨buffer, scope⟩, rfl⟩ := look_spec spec parsed
          exact ⟨.look true true, body, _, .behind mark angle behind, reads, ⟨buffer, scope⟩, rfl⟩
        obtain ⟨_, t1, named, captured⟩ := ran_bind.mp parsed
        obtain ⟨name, reads, buffer, scope⟩ := parseGroupName_spec named
        obtain ⟨body, reads', ⟨buffer', scope'⟩, rfl⟩ := capture_spec spec captured
        have count : t1.captureCount = s.captureCount := congrArg Scope.captureCount scope
        rw [List.append_nil] at buffer
        rw [scope, buffer, count] at buffer'
        rw [scope, count] at scope'
        exact ⟨.group name, body, _, .named mark angle notEqual notBang reads, reads', ⟨buffer', scope'⟩,
          congrArg _ count⟩
      rcases ran_ite.mp parsed with ⟨colon, parsed⟩ | ⟨-, parsed⟩
      · obtain ⟨_, t', inside, returned⟩ := ran_bind.mp (ran_lex_advance.mp parsed)
        obtain ⟨rfl, rfl⟩ := ran_pure.mp returned
        obtain ⟨body, reads, buffer, scope⟩ := spec.disjunction isBackward _ _ _ inside
        exact ⟨.plain, body, _, .plain mark colon, reads, ⟨buffer, scope⟩, rfl⟩
      · exact (not_ran_error parsed).elim
    · obtain ⟨_, _, named, captured⟩ := ran_bind.mp parsed
      obtain rfl := ran_addGroupName.mp named
      obtain ⟨body, reads, ⟨buffer, scope⟩, rfl⟩ := capture_spec spec captured
      exact ⟨.group [], body, _, .group noMark, reads, ⟨buffer, scope⟩, rfl⟩
  obtain ⟨wrap, body, opened, opens, reads, appends, rfl⟩ := wrapped
  have ended : t.cursor.c0 = keyEof ∨ t.cursor.c0 = ')'.toNat := reads.ends
  rcases ran_ite.mp (ran_lex_c0.mp ran) with ⟨⟨open', more⟩, -⟩ | ⟨-, ran⟩
  · exact (ended.elim more open').elim
  · rcases ran_ite.mp ran with ⟨-, failed⟩ | ⟨closed, returned⟩
    · exact (not_ran_error failed).elim
    · obtain ⟨rfl, rfl⟩ := ran_pure.mp returned
      exact ⟨wrap, body, opened, opens, reads, not_not.mp closed, appends, rfl⟩

theorem specified (p : Pattern) (fuel : Nat) : Specified p fuel := by
  have failed {α : Type} {s s' : Parser} {a : α} : ¬ Ran (lex unfinished) s a s' := by
    intro ran
    obtain ⟨cur, none', -⟩ := ran_lex.mp ran
    exact ran_unfinished.mp none'
  induction fuel with
  | zero =>
    exact ⟨fun _ _ _ _ ran => (failed ran).elim, fun _ _ _ _ _ _ _ _ _ ran => (failed ran).elim,
      fun _ _ _ _ _ _ _ ran => (failed ran).elim, fun _ _ _ _ ran => (failed ran).elim⟩
  | succ fuel ih =>
    exact ⟨disjunction_step ih, others_step ih, alternative_step ih, capture_step ih⟩

/-- What a pattern that is accepted is read as: its tree. -/
def ReadsAs (p : Pattern) (t : Tree) : Prop :=
  ∃ cur', Reads p .disjunction (p.next initial.cursor) t cur' ∧ cur'.c0 = keyEof

/-- The scope in which the disjunction of a pattern is compiled. -/
def initialScope : Scope := ⟨1, 0, false, []⟩

/-- `Parse` reads a tree and emits its code between the instructions for the whole match. -/
theorem parse_spec {s : Parser} (parsed : p.parse fuel = .ok s) :
    ∃ t, ReadsAs p t ∧ s.scope = t.scope initialScope ∧
      s.buffer = [.saveStart 0] ++ t.compile false initialScope ++ [.saveEnd 0, .matchEnd] := by
  have ran : Ran (p.parseBody fuel) initial () s := by
    obtain ⟨⟨_, s'⟩, ran, same⟩ := bind_eq_ok.mp parsed
    cases same
    exact ran
  obtain ⟨_, _, counted, ran⟩ := ran_bind.mp (ran_lex_advance.mp ran)
  obtain ⟨rfl, rfl⟩ := ran_countCapture.mp counted
  obtain ⟨_, _, saved, ran⟩ := ran_bind.mp ran
  obtain rfl := ran_emit.mp saved
  obtain ⟨_, t, disjunction, ran⟩ := ran_bind.mp ran
  obtain ⟨tree, reads, buffer, scope⟩ := (specified p fuel).disjunction false _ _ t disjunction
  rcases ran_ite.mp (ran_lex_c0.mp ran) with ⟨-, failed⟩ | ⟨ended, ran⟩
  · exact (not_ran_error failed).elim
  · simp only [ran_bind, ran_emit] at ran
    obtain ⟨_, _, rfl, rfl⟩ := ran
    refine ⟨tree, ⟨t.cursor, reads, not_not.mp ended⟩, scope, ?_⟩
    simp only [buffer]
    simp [initial, initialScope, Parser.scope]

/-- A pattern is accepted where `Parse` returns. -/
theorem accepted_of_isSome (returns : (p.parse fuel).toOption.isSome = true) :
    ∃ s, p.parse fuel = .ok s := by
  cases parsed : p.parse fuel with
  | error fault =>
    rw [parsed] at returns
    cases returns
  | ok s => exact ⟨s, rfl⟩

end Pattern

end RegExp

end ArkRuntime
