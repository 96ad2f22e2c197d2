import ArkRuntime.RegExp.Opcode
import ArkRuntime.Misc.Backtracking

/-!
# `RegExpExecutor`

The bytecode machine of `ecmascript/regexp/regexp_executor.h` and `.cpp`. A pointer into the input is the
index of a code unit and the null pointer is `none`; the input of a string that is not wide has units
below 256. Reads and writes outside an array and unknown instructions are faults. The case mappings of
the ICU library are parameters.

A handler gives the `Effect` of its instruction on the state: `PushRegExpState` copies position,
captures, loop stack and its depth, that is the whole `ExecState`, with another program counter.
-/

namespace ArkRuntime

namespace RegExp

open Backtracking

/-- `u_tolower` and `u_toupper`. -/
structure CaseMapping where
  toLower : Nat → Nat
  toUpper : Nat → Nat

/-- `RegExpParser::Canonicalize`. -/
def canonicalize (icu : CaseMapping) (c : Nat) (isUnicode : Bool) : Nat :=
  if c < 128 then if 97 ≤ c ∧ c ≤ 122 then c - 97 + 65 else c
  else if isUnicode then
    let lower := icu.toLower c
    if 97 ≤ lower ∧ lower ≤ 122 then c else lower
  else
    let upper := icu.toUpper c
    if 65 ≤ upper ∧ upper ≤ 90 then c else upper

def isAsciiLetter (c : Nat) : Bool := (65 ≤ c && c ≤ 90) || (97 ≤ c && c ≤ 122)

/-- `RegExpParser::GetcurrentCharNext`. -/
def getcurrentCharNext (icu : CaseMapping) (cur : Nat) : Nat :=
  let lower := icu.toLower cur
  let c := if lower = cur then icu.toUpper lower else lower
  if isAsciiLetter c && !isAsciiLetter cur then cur else c

def flagIgnoreCase : Nat := 1
def flagMultiline : Nat := 2
def flagDotAll : Nat := 3
def flagUtf16 : Nat := 4
def flagSticky : Nat := 5

/-- `OP_START_OFFSET`: the header has four numbers. -/
def opStartOffset : Nat := 16

/-- The bytecode with the numbers of its header. -/
structure Program where
  byteCode : List UInt8
  size : Nat
  nCapture : Nat
  nStack : Nat
  flags : Nat

/-- The reads at the beginning of `Execute`. -/
def Program.load (buf : List UInt8) : Option Program := do
  return ⟨buf, ← getU32 buf 0, ← getU32 buf 4, ← getU32 buf 8, ← getU32 buf 12⟩

/-- What does not change while a program runs. -/
structure Executor where
  icu : CaseMapping
  program : Program
  input : List UInt16
  isWideChar : Bool

structure CaptureState where
  captureStart : Option Nat
  captureEnd : Option Nat
deriving DecidableEq, Repr

/-- The part of the executor that a `RegExpState` saves. -/
structure ExecState where
  currentPc : Nat
  currentPtr : Nat
  captureResultList : List CaptureState
  stack : List Nat
  currentStack : Nat
deriving DecidableEq, Repr

abbrev RegExpState := Frame ExecState

def isLead (c : Nat) : Bool := c &&& 0xfc00 == 0xd800
def isTrail (c : Nat) : Bool := c &&& 0xfc00 == 0xdc00

/-- `U16_GET_SUPPLEMENTARY`. -/
def supplementary (lead trail : Nat) : Nat := lead * 2 ^ 10 + trail - (0xd800 * 2 ^ 10 + 0xdc00 - 0x10000)

namespace Executor

variable (e : Executor)

def isIgnoreCase : Bool := e.program.flags.testBit flagIgnoreCase
def isMultiline : Bool := e.program.flags.testBit flagMultiline
def isUtf16 : Bool := e.program.flags.testBit flagUtf16
def isSticky : Bool := e.program.flags.testBit flagSticky

/-- `IsEOF`. -/
def isEOF (ptr : Nat) : Bool := e.input.length ≤ ptr

def unit (ptr : Nat) : Option Nat := e.input[ptr]?.map UInt16.toNat

/-- `GetChar`: the character and the pointer behind it. -/
def getChar (ptr stop : Nat) : Option (Nat × Nat) := do
  let c ← e.unit ptr
  if e.isWideChar && isLead c && e.isUtf16 && ptr + 1 < stop then
    let c1 ← e.unit (ptr + 1)
    if isTrail c1 then return (supplementary c c1, ptr + 2) else return (c, ptr + 1)
  else return (c, ptr + 1)

/-- `PeekChar`. -/
def peekChar (ptr stop : Nat) : Option Nat := (e.getChar ptr stop).map (·.1)

/-- `AdvancePtr`. -/
def advancePtr (ptr stop : Nat) : Option Nat :=
  if e.isWideChar then (e.getChar ptr stop).map (·.2) else some (ptr + 1)

/-- `GetPrevChar`: the character before the pointer and the pointer to it. -/
def getPrevChar (ptr start : Nat) : Option (Nat × Nat) := do
  if ptr = 0 then none
  else
    let c ← e.unit (ptr - 1)
    if e.isWideChar && isTrail c && e.isUtf16 && start < ptr - 1 then
      let c1 ← e.unit (ptr - 2)
      if isLead c1 then return (supplementary c1 c, ptr - 2) else return (c, ptr - 1)
    else return (c, ptr - 1)

/-- `PeekPrevChar`. -/
def peekPrevChar (ptr start : Nat) : Option Nat := (e.getPrevChar ptr start).map (·.1)

/-- `PrevPtr`. -/
def prevPtr (ptr start : Nat) : Option Nat :=
  if e.isWideChar then (e.getPrevChar ptr start).map (·.2) else some (ptr - 1)

/-- `IsWordChar`, whose argument is a `uint8_t`. -/
def isWordChar (c : Nat) : Bool :=
  let value := c % 256
  (48 ≤ value && value ≤ 57) || (97 ≤ value && value ≤ 122) || (65 ≤ value && value ≤ 90) || value == 95

/-- `IsTerminator`. -/
def isTerminator (value : Nat) : Bool :=
  value == 10 || value == 13 || value == 0x2028 || value == 0x2029

/-- `currentPc_ += offset`, for a `uint32_t`. -/
def addOffset (pc offset : Nat) : Nat := (pc + offset) % 2 ^ 32

/-- `Advance(opCode, offset)`. -/
def advance (s : ExecState) (instr : Instr) (offset : Nat) : ExecState :=
  { s with currentPc := addOffset s.currentPc (offset + instr.size) }

/-! ## The handlers -/

/-- `HandleOpAll`. -/
def handleOpAll (instr : Instr) (s : ExecState) : Option (Effect ExecState) := do
  if e.isEOF s.currentPtr then return .fail
  else
    let (currentChar, ptr) ← e.getChar s.currentPtr e.input.length
    if instr = .dots ∧ isTerminator currentChar then return .fail
    else return .next (advance { s with currentPtr := ptr } instr 0)

/-- `HandleOpChar`. -/
def handleOpChar (instr : Instr) (expectedChar : Nat) (s : ExecState) : Option (Effect ExecState) := do
  if e.isEOF s.currentPtr then return .fail
  else
    let (c, ptr) ← e.getChar s.currentPtr e.input.length
    let currentChar := if e.isIgnoreCase then canonicalize e.icu c e.isUtf16 else c
    if currentChar = expectedChar then return .next (advance { s with currentPtr := ptr } instr 0)
    else return .fail

/-- `HandleOpWordBoundary`. -/
def handleOpWordBoundary (instr : Instr) (s : ExecState) : Option (Effect ExecState) := do
  let preIsWord ← if s.currentPtr = 0 then some false
    else (e.peekPrevChar s.currentPtr 0).map isWordChar
  let currentIsWord ← if e.isEOF s.currentPtr then some false
    else (e.peekChar s.currentPtr e.input.length).map isWordChar
  if (instr = .wordBoundary ∧ preIsWord ≠ currentIsWord) ∨
      (instr = .notWordBoundary ∧ preIsWord = currentIsWord) then return .next (advance s instr 0)
  else return .fail

/-- `HandleOpLineStart`. -/
def handleOpLineStart (instr : Instr) (s : ExecState) : Option (Effect ExecState) := do
  if s.currentPtr = 0 then return .next (advance s instr 0)
  else if e.isMultiline then
    let c ← e.peekPrevChar s.currentPtr 0
    if c = 10 then return .next (advance s instr 0) else return .fail
  else return .fail

/-- `HandleOpLineEnd`. -/
def handleOpLineEnd (instr : Instr) (s : ExecState) : Option (Effect ExecState) := do
  if e.isEOF s.currentPtr then return .next (advance s instr 0)
  else if e.isMultiline then
    let c ← e.peekChar s.currentPtr e.input.length
    if c = 10 then return .next (advance s instr 0) else return .fail
  else return .fail

/-- A capture is written if it is there. -/
def setCapture (s : ExecState) (index : Nat) (f : CaptureState → CaptureState) : Option ExecState := do
  let captureState ← s.captureResultList[index]?
  return { s with captureResultList := s.captureResultList.set index (f captureState) }

/-- `HandleOpSaveStart`. -/
def handleOpSaveStart (instr : Instr) (capture : Nat) (s : ExecState) : Option (Effect ExecState) := do
  let s ← setCapture s capture fun c => { c with captureStart := some s.currentPtr }
  return .next (advance s instr 0)

/-- `HandleOpSaveEnd`. -/
def handleOpSaveEnd (instr : Instr) (capture : Nat) (s : ExecState) : Option (Effect ExecState) := do
  let s ← setCapture s capture fun c => { c with captureEnd := some s.currentPtr }
  return .next (advance s instr 0)

/-- The loop of `HandleOpSaveReset`, `n` captures from `i` on. -/
def resetCaptures : Nat → Nat → ExecState → Option ExecState
  | 0, _, s => some s
  | n + 1, i, s => do
      let s ← setCapture s i fun _ => ⟨none, none⟩
      resetCaptures n (i + 1) s

/-- `HandleOpSaveReset`. -/
def handleOpSaveReset (instr : Instr) (first last : Nat) (s : ExecState) : Option (Effect ExecState) := do
  let s ← resetCaptures (last + 1 - first) first s
  return .next (advance s instr 0)

/-- `HandleOpMatch`. -/
def handleOpMatch (instr : Instr) (kind : FrameKind) (offset : Nat) (s : ExecState) :
    Option (Effect ExecState) :=
  let s := advance s instr 0
  some (.push kind { s with currentPc := addOffset s.currentPc offset } s)

/-- `HandleOpSplitFirst`. -/
def handleOpSplitFirst (instr : Instr) (offset : Nat) (s : ExecState) : Option (Effect ExecState) :=
  let s := advance s instr 0
  some (.push .split s { s with currentPc := addOffset s.currentPc offset })

/-- `HandleOpPrev`. -/
def handleOpPrev (instr : Instr) (s : ExecState) : Option (Effect ExecState) := do
  if s.currentPtr = 0 then return .fail
  else
    let ptr ← e.prevPtr s.currentPtr 0
    return .next (advance { s with currentPtr := ptr } instr 0)

/-- `PushStack`. -/
def pushStack (s : ExecState) (val : Nat) : Option ExecState :=
  if s.currentStack < s.stack.length then
    some { s with stack := s.stack.set s.currentStack val, currentStack := s.currentStack + 1 }
  else none

/-- `PeekStack`. -/
def peekStack (s : ExecState) : Option Nat :=
  if s.currentStack = 0 then none else s.stack[s.currentStack - 1]?

/-- `PopStack`. -/
def popStack (s : ExecState) : Option (Nat × ExecState) := do
  let val ← peekStack s
  return (val, { s with currentStack := s.currentStack - 1 })

/-- `SetStackValue`. -/
def setStackValue (s : ExecState) (val : Nat) : ExecState :=
  { s with stack := s.stack.set (s.currentStack - 1) val }

/-- `HandleOpLoop`. -/
def handleOpLoop (instr : Instr) (isGreedy : Bool) (pcOffset quantifyMin quantifyMax : Nat)
    (s : ExecState) : Option (Effect ExecState) := do
  let s := advance s instr 0
  let loopPcEnd := s.currentPc
  let loopPcStart := addOffset s.currentPc pcOffset
  let loopMax := if isGreedy then quantifyMax else quantifyMin
  let top ← peekStack s
  let loopCount := (top % 2 ^ 32 + 1) % 2 ^ 32
  let s := setStackValue s loopCount
  if loopCount < loopMax then
    -- greedy failed, goto next
    if quantifyMin ≤ loopCount then
      return .push .split { s with currentPc := loopPcEnd } { s with currentPc := loopPcStart }
    else return .next { s with currentPc := loopPcStart }
  else if !isGreedy && loopCount < quantifyMax then
    return .push .split { s with currentPc := loopPcStart } s
  else return .next s

/-- The binary search of `HandleOpRange32` and `IsFoundOpRange`, between `idxMin` and `idxEnd`, which is
    `idxMax + 1`. -/
def findRange (rangeSet : RangeSet) (c : Nat) : Nat → Nat → Nat → Bool
  | 0, _, _ => false
  | fuel + 1, idxMin, idxEnd =>
      if idxMin < idxEnd then
        let idx := (idxMin + (idxEnd - 1)) / 2
        match rangeSet[idx]? with
        | none => false
        | some range =>
            if c < range.first then findRange rangeSet c fuel idxMin idx
            else if range.second < c then findRange rangeSet c fuel (idx + 1) idxEnd
            else true
      else false

/-- `IsFoundOpRange`, and the search of `HandleOpRange32`. -/
def isFoundOpRange (rangeSet : RangeSet) (c : Nat) : Bool :=
  match rangeSet.getLast? with
  | none => false
  | some last => c ≤ last.second && findRange rangeSet c rangeSet.length 0 rangeSet.length

/-- `HandleOpRange32`. -/
def handleOpRange32 (instr : Instr) (rangeSet : RangeSet) (s : ExecState) :
    Option (Effect ExecState) := do
  if e.isEOF s.currentPtr then return .fail
  else
    let (c, ptr) ← e.getChar s.currentPtr e.input.length
    let currentChar := if e.isIgnoreCase then canonicalize e.icu c e.isUtf16 else c
    if isFoundOpRange rangeSet currentChar then
      return .next (advance { s with currentPtr := ptr } instr 0)
    else return .fail

/-- `HandleOpRange`. -/
def handleOpRange (instr : Instr) (rangeSet : RangeSet) (s : ExecState) :
    Option (Effect ExecState) := do
  if e.isEOF s.currentPtr then return .fail
  else
    let (currentChar, ptr) ← e.getChar s.currentPtr e.input.length
    let currentCharNext := if e.isIgnoreCase then getcurrentCharNext e.icu currentChar else currentChar
    if isFoundOpRange rangeSet currentChar || isFoundOpRange rangeSet currentCharNext then
      return .next (advance { s with currentPtr := ptr } instr 0)
    else return .fail

/-- The comparison of two characters in `HandleOpBackReference`. -/
def sameChar (c1 c2 : Nat) : Bool :=
  if e.isIgnoreCase then canonicalize e.icu c1 e.isUtf16 == canonicalize e.icu c2 e.isUtf16
  else c1 == c2

/-- The loop of a back reference: at most `fuel` characters from `refCptr` to `captureEnd`. The result is
    the pointer behind what matched, or `none` if something did not. -/
def matchForward (captureEnd : Nat) : Nat → Nat → Nat → Option (Option Nat)
  | 0, _, ptr => some (some ptr)
  | fuel + 1, refCptr, ptr => do
      if refCptr < captureEnd then
        if e.isEOF ptr then return none
        else
          let (c1, refCptr) ← e.getChar refCptr captureEnd
          let (c2, ptr) ← e.getChar ptr e.input.length
          if e.sameChar c1 c2 then matchForward captureEnd fuel refCptr ptr else return none
      else return some ptr

/-- The loop of a backward back reference. -/
def matchBackward (captureStart : Nat) : Nat → Nat → Nat → Option (Option Nat)
  | 0, _, ptr => some (some ptr)
  | fuel + 1, refCptr, ptr => do
      if captureStart < refCptr then
        if ptr = 0 then return none
        else
          let (c1, refCptr) ← e.getPrevChar refCptr captureStart
          let (c2, ptr) ← e.getPrevChar ptr 0
          if e.sameChar c1 c2 then matchBackward captureStart fuel refCptr ptr else return none
      else return some ptr

/-- `HandleOpBackReference`. -/
def handleOpBackReference (instr : Instr) (backward : Bool) (capture : Nat) (s : ExecState) :
    Option (Effect ExecState) := do
  if e.program.nCapture ≤ capture then return .fail
  else
    let captureState ← s.captureResultList[capture]?
    match captureState.captureStart, captureState.captureEnd with
    | some captureStart, some captureEnd =>
        let isMatched ← if backward then
            e.matchBackward captureStart (captureEnd - captureStart) captureEnd s.currentPtr
          else e.matchForward captureEnd (captureEnd - captureStart) captureStart s.currentPtr
        match isMatched with
        | some ptr => return .next (advance { s with currentPtr := ptr } instr 0)
        | none => return .fail
    | _, _ => return .next (advance s instr 0)

/-- The `switch` of `ExecuteInternal`. -/
def handle (instr : Instr) (s : ExecState) : Option (Effect ExecState) :=
  match instr with
  | .dots | .all => e.handleOpAll instr s
  | .char32 value | .char value => e.handleOpChar instr value s
  | .notWordBoundary | .wordBoundary => e.handleOpWordBoundary instr s
  | .lineStart => e.handleOpLineStart instr s
  | .lineEnd => e.handleOpLineEnd instr s
  | .saveStart capture => handleOpSaveStart instr capture s
  | .saveEnd capture => handleOpSaveEnd instr capture s
  | .goto offset => some (.next (advance s instr offset))
  | .matched => some .cut
  | .matchEnd => some .finish
  | .saveReset first last => handleOpSaveReset instr first last s
  | .splitNext offset => handleOpMatch instr .split offset s
  | .matchAhead offset => handleOpMatch instr .ahead offset s
  | .negativeMatchAhead offset => handleOpMatch instr .notAhead offset s
  | .splitFirst offset => handleOpSplitFirst instr offset s
  | .prev => e.handleOpPrev instr s
  | .loopGreedy start min max => handleOpLoop instr true start min max s
  | .loop start min max => handleOpLoop instr false start min max s
  | .pushChar => (pushStack s s.currentPtr).map fun s => .next (advance s instr 0)
  | .checkChar offset => (popStack s).map fun (val, s) =>
      .next (advance s instr (if val ≠ s.currentPtr then 0 else offset))
  | .push => (pushStack s 0).map fun s => .next (advance s instr 0)
  | .pop => (popStack s).map fun (_, s) => .next (advance s instr 0)
  | .range32 rangeSet => e.handleOpRange32 instr rangeSet s
  | .range rangeSet => e.handleOpRange instr rangeSet s
  | .backreference capture => e.handleOpBackReference instr false capture s
  | .backwardBackreference capture => e.handleOpBackReference instr true capture s

/-- One instruction. The loop of `ExecuteInternal` returns when the program counter is at the end. -/
def effect (s : ExecState) : Effect ExecState :=
  if s.currentPc < e.program.size then
    ((fetch e.program.byteCode s.currentPc).bind fun instr => e.handle instr s).getD .fault
  else .finish

/-! ## `Execute` -/

/-- `PopRegExpState(false)`: the captures stay. -/
def keepCaptures (saved s : ExecState) : ExecState :=
  { saved with captureResultList := s.captureResultList }

/-- `MatchFailed`, and how `ExecuteInternal` goes on after it. -/
def matchFailed (s : ExecState) (isMatched : Bool) :
    List RegExpState → Config ExecState ⊕ Verdict ExecState
  | [] => .inr .failed
  | state :: rest =>
      if state.kind = .split then
        if !isMatched then .inl (state.saved, rest) else matchFailed s isMatched rest
      else
        let isMatched := (state.kind == .ahead && isMatched) || (state.kind == .notAhead && !isMatched)
        if isMatched then
          if state.kind = .ahead then .inl (keepCaptures state.saved s, rest)
          else .inl (state.saved, rest)
        else matchFailed s isMatched rest

/-- `HandleFirstSplit`; the result is `.inr` when `ExecuteInternal` returns. -/
def handleFirstSplit : Config ExecState → Config ExecState ⊕ Verdict ExecState
  | (s, stateStack) =>
      if s.currentPc = opStartOffset ∧ stateStack = [] ∧ e.isSticky = false then
        if e.isEOF s.currentPtr then matchFailed s false stateStack
        else
          match e.advancePtr s.currentPtr e.input.length with
          | none => .inr .fault
          | some ptr =>
              let s := { s with currentPtr := ptr }
              .inl (s, ⟨.split, { s with currentPc := opStartOffset }⟩ :: stateStack)
      else .inl (s, stateStack)

/-- One round of `ExecuteInternal`. -/
def executeRound (config : Config ExecState) : Config ExecState ⊕ Verdict ExecState :=
  if config.1.currentPc < e.program.size then
    match e.handleFirstSplit config with
    | .inr verdict => .inr verdict
    | .inl (s, stateStack) =>
        match e.effect s with
        | .next s' => .inl (s', stateStack)
        | .push kind saved s' => .inl (s', ⟨kind, saved⟩ :: stateStack)
        | .fail => matchFailed s false stateStack
        | .cut => matchFailed s true stateStack
        | .finish => .inr (.finished s)
        | .fault => .inr .fault
  else .inr (.finished config.1)

/-- The state in which `Execute` tries to match at `ptr`. -/
def start (ptr : Nat) : ExecState where
  currentPc := opStartOffset
  currentPtr := ptr
  captureResultList := List.replicate e.program.nCapture ⟨none, none⟩
  stack := List.replicate e.program.nStack 0
  currentStack := 0

/-- `Execute`, at most `fuel` instructions. -/
def execute (fuel lastIndex : Nat) : Option (Verdict ExecState) :=
  let s := e.start lastIndex
  iter e.executeRound fuel (s, if e.isSticky then [] else [⟨.split, s⟩])

end Executor

end RegExp

end ArkRuntime
