import ArkRuntime.RegExp.ExecutorModel

/-!
# The executor backtracks

`ExecuteInternal` keeps one stack of saved states of three kinds, and a match at the next start position
begins when the stack is empty at the first instruction. What it computes is the recursive meaning of
the bytecode, tried at one start position after the other (`Searches`).
-/

namespace ArkRuntime

namespace RegExp

open Backtracking

/-! ## Where an instruction leads -/

namespace Instr

/-- Where an instruction can lead, for one with `next` behind it. -/
def targets (next : Nat) : Instr → List Nat
  | goto offset => [Executor.addOffset next offset]
  | splitFirst offset | splitNext offset | matchAhead offset | negativeMatchAhead offset
  | loop offset _ _ | loopGreedy offset _ _ | checkChar offset => [next, Executor.addOffset next offset]
  | matched | matchEnd => []
  | _ => [next]

/-- The frame that an instruction can push, with the places where its state goes on and where the run goes on
    before it. -/
def ways (next : Nat) : Instr → Option (FrameKind × Nat × Nat)
  | splitNext offset => some (.split, Executor.addOffset next offset, next)
  | matchAhead offset => some (.ahead, Executor.addOffset next offset, next)
  | negativeMatchAhead offset => some (.notAhead, Executor.addOffset next offset, next)
  | splitFirst offset | loopGreedy offset _ _ => some (.split, next, Executor.addOffset next offset)
  | loop offset _ _ => some (.split, Executor.addOffset next offset, next)
  | _ => none

end Instr

namespace Executor

variable {e : Executor}

/-- The place behind an instruction. -/
def behind (s : ExecState) (instr : Instr) : Nat := addOffset s.currentPc (0 + instr.size)

/-- The state that an instruction saves: it is the one at the instruction, for `LOOP` with one more iteration
    counted. -/
def counted (s : ExecState) : Instr → ExecState
  | .loop _ _ _ | .loopGreedy _ _ _ =>
      match peekStack s with
      | some top => setStackValue s ((top % 2 ^ 32 + 1) % 2 ^ 32)
      | none => s
  | _ => s

section Handlers

variable {s : ExecState} {instr : Instr} {Q : Effect ExecState → Prop}

/-- What a handler does where it returns has a property. -/
def Ensures (Q : Effect ExecState → Prop) (m : Option (Effect ExecState)) : Prop := ∀ eff, m = some eff → Q eff

theorem ensures_some {eff : Effect ExecState} (holds : Q eff) : Ensures Q (some eff) := by
  rintro eff ⟨⟩
  exact holds

theorem ensures_bind {α : Type} {x : Option α} {f : α → Option (Effect ExecState)}
    (all : ∀ a, x = some a → Ensures Q (f a)) : Ensures Q (x >>= f) := by
  intro eff is
  obtain ⟨a, got, is⟩ := Option.bind_eq_some_iff.mp is
  exact all a got eff is

theorem ensures_ite {c : Prop} [Decidable c] {m m' : Option (Effect ExecState)} (left : c → Ensures Q m)
    (right : ¬c → Ensures Q m') : Ensures Q (if c then m else m') := by
  split_ifs with holds
  · exact left holds
  · exact right holds

/-- What is true of a failure and of all states behind an instruction with the same captures. -/
structure Passes (s : ExecState) (instr : Instr) (Q : Effect ExecState → Prop) : Prop where
  fails : Q .fail
  goes : ∀ t, t.captureResultList = s.captureResultList → t.currentPc = behind s instr → Q (.next t)

variable (passes : Passes s instr Q)

include passes

theorem handleOpAll_ensures : Ensures Q (e.handleOpAll instr s) :=
  ensures_ite (fun _ => ensures_some passes.fails) fun _ => ensures_bind fun _ _ =>
    ensures_ite (fun _ => ensures_some passes.fails) fun _ => ensures_some (passes.goes _ rfl rfl)

theorem handleOpChar_ensures (c : Nat) : Ensures Q (e.handleOpChar instr c s) :=
  ensures_ite (fun _ => ensures_some passes.fails) fun _ => ensures_bind fun _ _ =>
    ensures_ite (fun _ => ensures_some (passes.goes _ rfl rfl)) fun _ => ensures_some passes.fails

theorem handleOpWordBoundary_ensures : Ensures Q (e.handleOpWordBoundary instr s) := by
  have decided {c : Bool → Prop} [∀ b, Decidable (c b)] {current : Option Bool} :
      Ensures Q (current >>= fun b => if c b then some (.next (advance s instr 0)) else some .fail) :=
    ensures_bind fun _ _ => ensures_ite (fun _ => ensures_some (passes.goes _ rfl rfl)) fun _ =>
      ensures_some passes.fails
  refine ensures_ite (fun _ => ensures_bind fun _ _ => ?_) fun _ => ensures_bind fun _ _ => ?_
  · exact ensures_ite (fun _ => decided) fun _ => decided
  · exact ensures_ite (fun _ => decided) fun _ => decided

theorem handleOpLineStart_ensures : Ensures Q (e.handleOpLineStart instr s) :=
  ensures_ite (fun _ => ensures_some (passes.goes _ rfl rfl)) fun _ => ensures_ite (fun _ =>
    ensures_bind fun _ _ => ensures_ite (fun _ => ensures_some (passes.goes _ rfl rfl)) fun _ =>
      ensures_some passes.fails) fun _ => ensures_some passes.fails

theorem handleOpLineEnd_ensures : Ensures Q (e.handleOpLineEnd instr s) :=
  ensures_ite (fun _ => ensures_some (passes.goes _ rfl rfl)) fun _ => ensures_ite (fun _ =>
    ensures_bind fun _ _ => ensures_ite (fun _ => ensures_some (passes.goes _ rfl rfl)) fun _ =>
      ensures_some passes.fails) fun _ => ensures_some passes.fails

theorem handleOpPrev_ensures : Ensures Q (e.handleOpPrev instr s) :=
  ensures_ite (fun _ => ensures_some passes.fails) fun _ => ensures_bind fun _ _ =>
    ensures_some (passes.goes _ rfl rfl)

theorem pushStack_ensures (val : Nat) : Ensures Q ((pushStack s val).map fun s => .next (advance s instr 0)) := by
  intro eff did
  obtain ⟨t, pushed, rfl⟩ := Option.map_eq_some_iff.mp did
  rw [pushStack] at pushed
  split_ifs at pushed
  cases pushed
  exact passes.goes _ rfl rfl

theorem handleOpRange_ensures (rangeSet : RangeSet) : Ensures Q (e.handleOpRange instr rangeSet s) :=
  ensures_ite (fun _ => ensures_some passes.fails) fun _ => ensures_bind fun _ _ =>
    ensures_ite (fun _ => ensures_some (passes.goes _ rfl rfl)) fun _ => ensures_some passes.fails

theorem handleOpRange32_ensures (rangeSet : RangeSet) : Ensures Q (e.handleOpRange32 instr rangeSet s) :=
  ensures_ite (fun _ => ensures_some passes.fails) fun _ => ensures_bind fun _ _ =>
    ensures_ite (fun _ => ensures_some (passes.goes _ rfl rfl)) fun _ => ensures_some passes.fails

theorem handleOpBackReference_ensures (backward : Bool) (capture : Nat) :
    Ensures Q (e.handleOpBackReference instr backward capture s) := by
  refine ensures_ite (fun _ => ensures_some passes.fails) fun _ => ensures_bind fun captureState _ => ?_
  cases captureState.captureStart with
  | none => exact ensures_some (passes.goes _ rfl rfl)
  | some captureStart =>
    cases captureState.captureEnd with
    | none => exact ensures_some (passes.goes _ rfl rfl)
    | some captureEnd =>
      refine ensures_ite (fun _ => ensures_bind fun isMatched _ => ?_) fun _ => ensures_bind fun isMatched _ => ?_
      all_goals
        cases isMatched with
        | none => exact ensures_some passes.fails
        | some ptr => exact ensures_some (passes.goes _ rfl rfl)

end Handlers

theorem addOffset_addOffset (pc a b : Nat) : addOffset (addOffset pc a) b = addOffset pc (b + a) := by
  simp only [addOffset]
  omega

/-- `LOOP` counts the iteration and goes on at its end or at its start. -/
theorem handleOpLoop_ensures {s : ExecState} {instr : Instr} {Q : Effect ExecState → Prop} {isGreedy : Bool}
    {start min max : Nat}
    (goes : ∀ t, t.captureResultList = s.captureResultList →
      t.currentPc = behind s instr ∨ t.currentPc = addOffset (behind s instr) start → Q (.next t))
    (forks : ∀ top, peekStack s = some top →
      let t := setStackValue s ((top % 2 ^ 32 + 1) % 2 ^ 32)
      let stop := { t with currentPc := behind s instr }
      let again := { t with currentPc := addOffset (behind s instr) start }
      if isGreedy then Q (.push .split stop again) else Q (.push .split again stop)) :
    Ensures Q (handleOpLoop instr isGreedy start min max s) := by
  refine ensures_bind fun top peeked => ?_
  have fork := forks top peeked
  cases isGreedy with
  | true =>
    refine ensures_ite (fun _ => ensures_ite (fun _ => ensures_some fork) fun _ => ?_) fun _ => ?_
    · exact ensures_some (goes _ rfl (.inr rfl))
    · exact ensures_some (goes _ rfl (.inl rfl))
  | false =>
    refine ensures_ite (fun less => ensures_ite (fun enough => absurd less (Nat.not_lt.mpr enough)) fun _ => ?_)
      fun _ => ensures_ite (fun _ => ensures_some fork) fun _ => ?_
    · exact ensures_some (goes _ rfl (.inr rfl))
    · exact ensures_some (goes _ rfl (.inl rfl))

/-- Every instruction fails or ends, goes on at one of its targets with the captures as they are but for those
    that it saves or resets, or saves the state that it is in. -/
theorem handle_ensures {s : ExecState} {instr : Instr} {Q : Effect ExecState → Prop}
    (stops : ∀ eff, eff = .fail ∨ eff = .cut ∨ eff = .finish → Q eff)
    (goes : ∀ t, t.captureResultList = s.captureResultList → t.currentPc ∈ instr.targets (behind s instr) →
      Q (.next t))
    (saves : ∀ k f t, instr = .saveStart k ∨ instr = .saveEnd k → setCapture s k f = some t →
      Q (.next (advance t instr 0)))
    (resets : ∀ first last t, instr = .saveReset first last → resetCaptures (last + 1 - first) first s = some t →
      Q (.next (advance t instr 0)))
    (forks : ∀ kind saved first, instr.ways (behind s instr) = some (kind, saved, first) →
      Q (.push kind { counted s instr with currentPc := saved } { counted s instr with currentPc := first })) :
    Ensures Q (e.handle instr s) := by
  have fails : Q .fail := stops _ (.inl rfl)
  have passes (only : instr.targets (behind s instr) = [behind s instr]) : Passes s instr Q :=
    ⟨fails, fun t same here => goes t same (by rw [only, here]; exact List.mem_singleton_self _)⟩
  -- the program counter of a jump, which is advanced once
  have jumps {t : ExecState} {offset : Nat} (same : t.captureResultList = s.captureResultList)
      (here : t.currentPc = s.currentPc) (reached : addOffset (behind s instr) offset ∈ instr.targets (behind s instr)) :
      Q (.next (advance t instr offset)) := by
    refine goes _ same ?_
    have there : (advance t instr offset).currentPc = addOffset (behind s instr) offset := by
      rw [behind, addOffset_addOffset, Nat.zero_add, ← here]
      rfl
    rw [there]
    exact reached
  cases instr with
  | saveStart k => exact ensures_bind fun t set => ensures_some (saves k _ t (.inl rfl) set)
  | saveEnd k => exact ensures_bind fun t set => ensures_some (saves k _ t (.inr rfl) set)
  | saveReset first last => exact ensures_bind fun t reset => ensures_some (resets first last t rfl reset)
  | char value => exact handleOpChar_ensures (passes rfl) _
  | char32 value => exact handleOpChar_ensures (passes rfl) _
  | goto offset => exact ensures_some (jumps rfl rfl (List.mem_singleton_self _))
  | splitFirst offset => exact ensures_some (forks _ _ _ rfl)
  | splitNext offset => exact ensures_some (forks _ _ _ rfl)
  | matchAhead offset => exact ensures_some (forks _ _ _ rfl)
  | negativeMatchAhead offset => exact ensures_some (forks _ _ _ rfl)
  | matched => exact ensures_some (stops _ (.inr (.inl rfl)))
  | matchEnd => exact ensures_some (stops _ (.inr (.inr rfl)))
  | loop start min max =>
    refine handleOpLoop_ensures (fun t same there => goes t same (by simpa [Instr.targets] using there)) ?_
    intro top peeked
    have fork := forks _ _ _ rfl
    rw [counted, peeked] at fork
    exact fork
  | loopGreedy start min max =>
    refine handleOpLoop_ensures (fun t same there => goes t same (by simpa [Instr.targets] using there)) ?_
    intro top peeked
    have fork := forks _ _ _ rfl
    rw [counted, peeked] at fork
    exact fork
  | pushChar => exact pushStack_ensures (passes rfl) _
  | push => exact pushStack_ensures (passes rfl) _
  | checkChar offset =>
    intro eff did
    obtain ⟨⟨val, t⟩, popped, rfl⟩ := Option.map_eq_some_iff.mp did
    obtain ⟨val', -, popped⟩ := Option.bind_eq_some_iff.mp popped
    cases popped
    show Q (.next (advance _ _ (if _ then _ else _)))
    split_ifs
    · exact goes _ rfl List.mem_cons_self
    · exact jumps rfl rfl (List.mem_cons_of_mem _ (List.mem_singleton_self _))
  | pop =>
    intro eff did
    obtain ⟨⟨val, t⟩, popped, rfl⟩ := Option.map_eq_some_iff.mp did
    obtain ⟨val', -, popped⟩ := Option.bind_eq_some_iff.mp popped
    cases popped
    exact (passes rfl).goes _ rfl rfl
  | lineStart => exact handleOpLineStart_ensures (passes rfl)
  | lineEnd => exact handleOpLineEnd_ensures (passes rfl)
  | wordBoundary => exact handleOpWordBoundary_ensures (passes rfl)
  | notWordBoundary => exact handleOpWordBoundary_ensures (passes rfl)
  | all => exact handleOpAll_ensures (passes rfl)
  | dots => exact handleOpAll_ensures (passes rfl)
  | prev => exact handleOpPrev_ensures (passes rfl)
  | range rangeSet => exact handleOpRange_ensures (passes rfl) _
  | range32 rangeSet => exact handleOpRange32_ensures (passes rfl) _
  | backreference capture => exact handleOpBackReference_ensures (passes rfl) _ _
  | backwardBackreference capture => exact handleOpBackReference_ensures (passes rfl) _ _

/-- What an instruction saves and what it goes on with is one state at the two places of the instruction. -/
theorem effect_push {s saved s' : ExecState} {kind : FrameKind} (is : e.effect s = .push kind saved s') :
    ∃ instr savedPc firstPc, fetch e.program.byteCode s.currentPc = some instr ∧
      instr.ways (behind s instr) = some (kind, savedPc, firstPc) ∧
      saved = { counted s instr with currentPc := savedPc } ∧ s' = { counted s instr with currentPc := firstPc } := by
  rw [effect] at is
  split_ifs at is
  cases did : (fetch e.program.byteCode s.currentPc).bind fun instr => e.handle instr s with
  | none =>
    rw [did] at is
    cases is
  | some eff =>
    rw [did] at is
    obtain ⟨instr, fetched, handled⟩ := Option.bind_eq_some_iff.mp did
    have forked : Ensures (fun eff => eff = .push kind saved s' → ∃ savedPc firstPc,
        instr.ways (behind s instr) = some (kind, savedPc, firstPc) ∧
          saved = { counted s instr with currentPc := savedPc } ∧
          s' = { counted s instr with currentPc := firstPc }) (e.handle instr s) := by
      refine handle_ensures ?_ ?_ ?_ ?_ ?_
      · rintro eff (rfl | rfl | rfl) <;> intro push <;> cases push
      · rintro t - - ⟨⟩
      · rintro k f t - - ⟨⟩
      · rintro first last t - - ⟨⟩
      · rintro kind savedPc firstPc ways ⟨⟩
        exact ⟨savedPc, firstPc, ways, rfl, rfl⟩
    obtain ⟨savedPc, firstPc, found⟩ := forked eff handled is
    exact ⟨instr, savedPc, firstPc, fetched, found⟩

/-! ## The stack of saved states -/

theorem matchFailed_false (s : ExecState) (frames : List RegExpState) :
    matchFailed s false frames = failBack frames := by
  induction frames with
  | nil => rfl
  | cons frame frames ih =>
    obtain ⟨kind, saved⟩ := frame
    cases kind with
    | split => rfl
    | ahead => exact ih
    | notAhead => rfl

theorem matchFailed_true (s : ExecState) (frames : List RegExpState) :
    matchFailed s true frames = cutBack keepCaptures s frames := by
  induction frames with
  | nil => rfl
  | cons frame frames ih =>
    obtain ⟨kind, saved⟩ := frame
    cases kind with
    | split => exact ih
    | ahead => rfl
    | notAhead => exact matchFailed_false s frames

/-- `HandleFirstSplit` does nothing on this stack. -/
def Underway (e : Executor) (frames : List RegExpState) : Prop := e.isSticky = true ∨ frames ≠ []

theorem underway_push (frame : RegExpState) (frames : List RegExpState) : Underway e (frame :: frames) :=
  .inr (List.cons_ne_nil _ _)

theorem handleFirstSplit_underway {frames : List RegExpState} (underway : Underway e frames)
    (s : ExecState) : e.handleFirstSplit (s, frames) = .inl (s, frames) := by
  rw [handleFirstSplit, if_neg]
  rintro ⟨-, empty, loose⟩
  rcases underway with sticky | some'
  · rw [sticky] at loose
    cases loose
  · exact some' empty

/-- One round is one step of the backtracking machine. -/
theorem executeRound_underway (s : ExecState) (frames : List RegExpState) (underway : Underway e frames) :
    e.executeRound (s, frames) = step e.effect keepCaptures (s, frames) := by
  rw [executeRound, handleFirstSplit_underway underway]
  by_cases inside : s.currentPc < e.program.size
  · rw [if_pos inside]
    rw [step]
    simp only
    cases e.effect s with
    | fail => exact matchFailed_false s frames
    | cut => exact matchFailed_true s frames
    | next s' => rfl
    | push kind saved s' => rfl
    | finish => rfl
    | fault => rfl
  · rw [if_neg inside]
    have is : e.effect s = .finish := by rw [effect, if_neg inside]
    exact (step_eq is).symm

/-- What `Execute` returns for an outcome when there is nothing left to try. -/
def verdict : Outcome ExecState → Verdict ExecState
  | .finished s => .finished s
  | .cut _ => .failed
  | .failed => .failed
  | .fault => .fault

/-- The recursive meaning of the bytecode at one start position after the other. The parser emits no
    `MATCH` outside of a look around; a program with one there does not match. -/
inductive Searches (e : Executor) : Nat → Verdict ExecState → Prop
  | here {ptr o} : Backtracks e.effect keepCaptures (e.start ptr) o → o ≠ .failed →
      Searches e ptr (verdict o)
  | exhausted {ptr} : Backtracks e.effect keepCaptures (e.start ptr) .failed → e.isEOF ptr = true →
      Searches e ptr .failed
  | later {ptr ptr' v} : Backtracks e.effect keepCaptures (e.start ptr) .failed → e.isEOF ptr = false →
      e.advancePtr ptr e.input.length = some ptr' → Searches e ptr' v → Searches e ptr v

/-- Without the sticky flag all start positions from `lastIndex` on are tried. -/
def Meaning (e : Executor) (lastIndex : Nat) (v : Verdict ExecState) : Prop :=
  if e.isSticky then ∃ o, Backtracks e.effect keepCaptures (e.start lastIndex) o ∧ v = verdict o
  else Searches e lastIndex v

theorem advancePtr_of_not_eof {ptr : Nat} (inside : e.isEOF ptr = false) :
    ∃ ptr', e.advancePtr ptr e.input.length = some ptr' := by
  rw [isEOF, decide_eq_false_iff_not, Nat.not_le] at inside
  rw [advancePtr]
  split_ifs
  · have here : e.unit ptr = some (e.input.get ⟨ptr, inside⟩).toNat := by
      rw [unit, List.getElem?_eq_getElem inside]
      rfl
    rw [getChar, here]
    simp only [Option.bind_eq_bind, Option.bind_some]
    split_ifs with pair
    · have more : ptr + 1 < e.input.length := by
        simp only [Bool.and_eq_true, decide_eq_true_eq] at pair
        exact pair.2
      have next : e.unit (ptr + 1) = some (e.input.get ⟨ptr + 1, more⟩).toNat := by
        rw [unit, List.getElem?_eq_getElem more]
        rfl
      rw [next]
      simp only [Option.bind_some]
      split_ifs
      · exact ⟨_, rfl⟩
      · exact ⟨_, rfl⟩
    · exact ⟨_, rfl⟩
  · exact ⟨_, rfl⟩

/-- A state that has failed has an instruction. -/
theorem inside_of_failed {s : ExecState} (failed : Backtracks e.effect keepCaptures s .failed) :
    s.currentPc < e.program.size := by
  by_contra outside
  have is : e.effect s = .finish := by rw [effect, if_neg outside]
  cases failed <;> simp_all

/-- The frame that `Execute` and `HandleFirstSplit` push. -/
def retry (e : Executor) (ptr : Nat) : RegExpState := ⟨.split, e.start ptr⟩

/-- On the empty stack the match at the next start position begins. -/
theorem executeRound_restart {ptr ptr' : Nat} (loose : e.isSticky = false)
    (inside : opStartOffset < e.program.size) (more : e.isEOF ptr = false)
    (next : e.advancePtr ptr e.input.length = some ptr') :
    e.executeRound (e.start ptr, []) = e.executeRound (e.start ptr', [e.retry ptr']) := by
  have first : e.handleFirstSplit (e.start ptr, []) = .inl (e.start ptr', [e.retry ptr']) := by
    have open' : ¬ e.isEOF (e.start ptr).currentPtr = true := Bool.eq_false_iff.mp more
    have next' : e.advancePtr (e.start ptr).currentPtr e.input.length = some ptr' := next
    rw [handleFirstSplit, if_pos ⟨rfl, rfl, loose⟩, if_neg open', next']
    rfl
  have second : e.handleFirstSplit (e.start ptr', [e.retry ptr']) = .inl (e.start ptr', [e.retry ptr']) :=
    handleFirstSplit_underway (underway_push _ _) _
  have here : (e.start ptr, ([] : List RegExpState)).1.currentPc < e.program.size := inside
  have there : (e.start ptr', [e.retry ptr']).1.currentPc < e.program.size := inside
  rw [executeRound, executeRound, first, second, if_pos here, if_pos there]

theorem executeRound_exhausted {ptr : Nat} (loose : e.isSticky = false)
    (inside : opStartOffset < e.program.size) (eof : e.isEOF ptr = true) :
    e.executeRound (e.start ptr, []) = .inr .failed := by
  have first : e.handleFirstSplit (e.start ptr, []) = .inr .failed := by
    have eof' : e.isEOF (e.start ptr).currentPtr = true := eof
    rw [handleFirstSplit, if_pos ⟨rfl, rfl, loose⟩, if_pos eof']
    rfl
  have here : (e.start ptr, ([] : List RegExpState)).1.currentPc < e.program.size := inside
  rw [executeRound, first, if_pos here]

theorem iter_restart {ptr ptr' fuel : Nat} (loose : e.isSticky = false)
    (inside : opStartOffset < e.program.size) (more : e.isEOF ptr = false)
    (next : e.advancePtr ptr e.input.length = some ptr') :
    iter e.executeRound fuel (e.start ptr, []) =
      iter e.executeRound fuel (e.start ptr', [e.retry ptr']) := by
  cases fuel with
  | zero => rfl
  | succ fuel => simp only [iter, executeRound_restart loose inside more next]

theorem proceed_verdict {o : Outcome ExecState} {ptr : Nat} (decided : o ≠ .failed) (fuel : Nat) :
    proceed e.executeRound fuel (resume keepCaptures [e.retry ptr] o) = some (verdict o) := by
  cases o with
  | failed => exact absurd rfl decided
  | _ => rfl

theorem runs_of_searches (loose : e.isSticky = false) {ptr : Nat} {v : Verdict ExecState}
    (searches : Searches e ptr v) :
    ∃ fuel, iter e.executeRound fuel (e.start ptr, [e.retry ptr]) = some v := by
  induction searches with
  | @here ptr o meaning decided =>
    obtain ⟨n, run⟩ := runs_of_backtracks executeRound_underway (fun _ _ _ => underway_push _ _) meaning
      [e.retry ptr] (underway_push _ _)
    exact ⟨0 + n, (run 0).trans (proceed_verdict decided 0)⟩
  | @exhausted ptr meaning eof =>
    obtain ⟨n, run⟩ := runs_of_backtracks executeRound_underway (fun _ _ _ => underway_push _ _) meaning
      [e.retry ptr] (underway_push _ _)
    refine ⟨1 + n, (run 1).trans ?_⟩
    exact iter_inr 0 (executeRound_exhausted loose (inside_of_failed meaning) eof)
  | @later ptr ptr' v meaning more next _ ih =>
    obtain ⟨n, run⟩ := runs_of_backtracks executeRound_underway (fun _ _ _ => underway_push _ _) meaning
      [e.retry ptr] (underway_push _ _)
    obtain ⟨fuel, rest⟩ := ih
    refine ⟨fuel + n, (run fuel).trans ?_⟩
    exact (iter_restart loose (inside_of_failed meaning) more next).trans rest

theorem searches_of_runs (loose : e.isSticky = false) (fuel : Nat) :
    ∀ (ptr : Nat) (v : Verdict ExecState),
      iter e.executeRound fuel (e.start ptr, [e.retry ptr]) = some v → Searches e ptr v := by
  induction fuel using Nat.strongRecOn with
  | _ fuel ih =>
    intro ptr v ran
    obtain ⟨o, m, less, meaning, rest⟩ := backtracks_of_runs executeRound_underway
      (fun _ _ _ => underway_push _ _) fuel _ _ v (underway_push _ _) ran
    by_cases decided : o = .failed
    · subst decided
      have inside := inside_of_failed meaning
      have rest' : iter e.executeRound m (e.start ptr, []) = some v := rest
      cases eof : e.isEOF ptr with
      | true =>
        cases m with
        | zero => cases rest'
        | succ m =>
          rw [iter_inr m (executeRound_exhausted loose inside eof), Option.some.injEq] at rest'
          rw [← rest']
          exact .exhausted meaning eof
      | false =>
        obtain ⟨ptr', next⟩ := advancePtr_of_not_eof eof
        rw [iter_restart loose inside eof next] at rest'
        exact .later meaning eof next (ih m less ptr' v rest')
    · rw [proceed_verdict decided, Option.some.injEq] at rest
      rw [← rest]
      exact .here meaning decided

theorem runs_iff_of_sticky (sticky : e.isSticky = true) {ptr : Nat} {v : Verdict ExecState} :
    (∃ fuel, iter e.executeRound fuel (e.start ptr, []) = some v) ↔
      ∃ o, Backtracks e.effect keepCaptures (e.start ptr) o ∧ v = verdict o := by
  have ended (o : Outcome ExecState) (fuel : Nat) :
      proceed e.executeRound fuel (resume keepCaptures [] o) = some (verdict o) := by
    cases o <;> rfl
  constructor
  · rintro ⟨fuel, ran⟩
    obtain ⟨o, m, -, meaning, rest⟩ := backtracks_of_runs executeRound_underway
      (fun _ _ _ => underway_push _ _) fuel _ _ v (.inl sticky) ran
    rw [ended, Option.some.injEq] at rest
    exact ⟨o, meaning, rest.symm⟩
  · rintro ⟨o, meaning, rfl⟩
    obtain ⟨n, run⟩ := runs_of_backtracks executeRound_underway (fun _ _ _ => underway_push _ _) meaning
      [] (.inl sticky)
    exact ⟨0 + n, (run 0).trans (ended o 0)⟩

/-- For every bytecode, input and start position, `Execute` returns what the recursive meaning says, and
    returns exactly where it says something. -/
theorem execute_iff_meaning (e : Executor) (lastIndex : Nat) (v : Verdict ExecState) :
    (∃ fuel, e.execute fuel lastIndex = some v) ↔ Meaning e lastIndex v := by
  unfold execute Meaning
  cases sticky : e.isSticky with
  | true =>
    simp only [if_true]
    exact runs_iff_of_sticky sticky
  | false =>
    simp only [Bool.false_eq_true, if_false]
    exact ⟨fun ⟨fuel, ran⟩ => searches_of_runs sticky fuel lastIndex v ran,
      fun searches => runs_of_searches sticky searches⟩

end Executor

end RegExp

end ArkRuntime
