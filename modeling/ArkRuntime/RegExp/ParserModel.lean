import ArkRuntime.RegExp.LexerModel

/-!
# `RegExpParser`

The recursive descent of `ecmascript/regexp/regexp_parser.cpp`. `buffer_` is the list of the emitted
instructions, of which `Instr.emit` gives the bytes: all instructions are inserted between others, so that
a position in the buffer is the number of instructions before it, while the distances that jumps carry are
numbers of bytes (`codeSize`). The allocations of the buffer succeed, and the check for a stack overflow is
left out.
-/

namespace ArkRuntime

namespace RegExp

/-- The number of bytes of some code. -/
def codeSize (code : List Instr) : Nat := (code.map Instr.size).sum

/-- The members of `RegExpParser` that change. -/
structure Parser where
  cursor : Cursor
  captureCount : Nat
  stackCount : Nat
  isEmpty : Bool
  buffer : List Instr
  /-- The names of the groups so far, the empty name for a group without one. -/
  groupNames : List (List UInt8)
  /-- `hasNamedCaptures_` is no longer -1. -/
  counted : Bool
deriving DecidableEq, Repr

abbrev ParserM (α : Type) := StateT Parser (Except ParseFault) α

/-- A function that reads characters only. -/
def lex {α : Type} (m : Lex α) : ParserM α := fun s => do
  let (a, cursor) ← m s.cursor
  return (a, { s with cursor := cursor })

def emit (instr : Instr) : ParserM Unit := fun s => .ok ((), { s with buffer := s.buffer ++ [instr] })

/-- An instruction is inserted at a position of the buffer. -/
def insertAt (pos : Nat) (instr : Instr) : ParserM Unit := fun s =>
  .ok ((), { s with buffer := s.buffer.take pos ++ instr :: s.buffer.drop pos })

/-- The number of instructions emitted so far: `buffer_.GetSize()` as a position. -/
def position : ParserM Nat := fun s => .ok (s.buffer.length, s)

/-- The number of bytes from a position on. -/
def bytesFrom (pos : Nat) : ParserM Nat := fun s => .ok (codeSize (s.buffer.drop pos), s)

def getParser : ParserM Parser := fun s => .ok (s, s)

def setEmpty (isEmpty : Bool) : ParserM Unit := fun s => .ok ((), { s with isEmpty := isEmpty })

/-- `stackCount_++`. -/
def countStack : ParserM Unit := fun s => .ok ((), { s with stackCount := s.stackCount + 1 })

/-- The number of a new group. -/
def countCapture : ParserM Nat := fun s =>
  .ok (s.captureCount, { s with captureCount := s.captureCount + 1 })

def addGroupName (name : List UInt8) : ParserM Unit := fun s =>
  .ok ((), { s with groupNames := s.groupNames ++ [name] })

def setCounted : ParserM Unit := fun s => .ok ((), { s with counted := true })

/-- The `PREV` before and after an atom of a look behind. -/
def emitPrev (isBackward : Bool) : ParserM Unit := onlyIf isBackward (emit .prev)

def emitChar (value : Nat) : ParserM Unit :=
  if value ≤ 0xffff then emit (.char value) else emit (.char32 value)

namespace Pattern

variable (p : Pattern)

/-- `FindGroupName`. -/
def findGroupName (groupNames : List (List UInt8)) (name : List UInt8) : Option Nat :=
  (groupNames.findIdx? (· = name)).map (· + 1)

/-! ## Atoms -/

/-- The decimal escapes of `ParseAtomEscape`. -/
def parseBackReference (fuel : Nat) (isBackward : Bool) : ParserM Unit := do
  let capture ← lex (p.parseDecimalDigits fuel)
  let s ← getParser
  if capture > s.captureCount - 1 then
    let count ← lex (p.parseCaptureCount fuel none)
    setCounted
    if capture > count - 1 then lex (parseError "invalid backreference count")
    else emit (if isBackward then .backwardBackreference capture else .backreference capture)
  else emit (if isBackward then .backwardBackreference capture else .backreference capture)

/-- `HasNamedCaptures`, which counts the groups and says no. -/
def hasNamedCaptures (fuel : Nat) : ParserM Bool := do
  let s ← getParser
  if s.counted then return false
  else
    let _ ← lex (p.parseCaptureCount fuel s.groupNames.head?)
    setCounted
    return false

/-- The test for the `<` of a name. -/
def expectName (fuel : Nat) : ParserM Unit := do
  if (← lex c0) = '<'.toNat then return
  else if !p.isUtf16 then lex (parseError "expecting group name.")
  else if ← p.hasNamedCaptures fuel then lex (parseError "expecting group name.")
  else return

/-- The number that a name stands for. -/
def nameNumber (fuel : Nat) (name : List UInt8) : ParserM Nat := do
  let s ← getParser
  match findGroupName s.groupNames name with
  | some postion => return postion
  | none =>
      let postion ← lex (p.parseCaptureCount fuel (some name))
      setCounted
      return postion

/-- The case `k` of `ParseAtomEscape`. -/
def parseNamedReference (fuel : Nat) (isBackward : Bool) : ParserM Unit := do
  lex p.advance
  p.expectName fuel
  lex p.advance
  lex p.prev
  match ← lex (do p.parseGroupSpecifier fuel (← getPc)) with
  | none => lex (parseError "GroupName Syntax error.")
  | some (name, pc) =>
      lex (setPc pc)
      let postion ← p.nameNumber fuel name
      emit (if isBackward then .backwardBackreference postion else .backreference postion)
      lex p.advance

/-- A class escape of `ParseAtomEscape`. -/
def emitClassEscape (isBackward : Bool) (instr : Instr) : ParserM Unit := do
  emitPrev isBackward
  emit instr
  emitPrev isBackward
  lex p.advance

/-- `ParseAtomEscape`; `none` is -1. -/
def parseAtomEscape (fuel : Nat) (isBackward : Bool) : ParserM (Option Nat) := do
  let c ← lex c0
  if c = keyEof then lex (parseError "unexpected end")
  else if '1'.toNat ≤ c ∧ c ≤ '9'.toNat then
    p.parseBackReference fuel isBackward
    return none
  else if c = 'd'.toNat then
    p.emitClassEscape isBackward (.range rangeD)
    return none
  else if c = 'D'.toNat then
    p.emitClassEscape isBackward (.range32 (rangeD.invert p.isUtf16))
    return none
  else if c = 's'.toNat then
    p.emitClassEscape isBackward (.range rangeS)
    return none
  else if c = 'S'.toNat then
    p.emitClassEscape isBackward (.range32 (rangeS.invert p.isUtf16))
    return none
  else if c = 'w'.toNat then
    p.emitClassEscape isBackward (.range rangeW)
    return none
  else if c = 'W'.toNat then
    p.emitClassEscape isBackward (.range32 (rangeW.invert p.isUtf16))
    return none
  else if c = 'P'.toNat ∨ c = 'p'.toNat then
    let (_, atomRange) ← lex (p.parseClassEscape fuel)
    emitPrev isBackward
    emit (.range32 atomRange)
    return none
  else if c = 'k'.toNat then
    p.parseNamedReference fuel isBackward
    return none
  else lex (p.parseCharacterEscape fuel)

/-- The character of an escape. With the flags for the case and for UTF-16 there is no second `PREV`. -/
def emitAtomValue (isBackward : Bool) (atomValue : Nat) : ParserM Unit := do
  emitPrev isBackward
  if p.isIgnoreCase then
    if !p.isUtf16 then
      emitChar (canonicalize p.icu.toCaseMapping atomValue false)
      emitPrev isBackward
    else
      emit (.range ((p.icu.closeOver atomValue).foldl
        (fun rangeResult uc => rangeResult.insertSet (RangeSet.insert [] uc uc)) []))
  else
    emitChar atomValue
    emitPrev isBackward

/-- The case `\` of `ParseAlternative`: whether it is an atom. -/
def parseEscape (fuel : Nat) (isBackward : Bool) : ParserM Bool := do
  lex p.advance
  let c ← lex c0
  if c = 'b'.toNat then
    emit .wordBoundary
    lex p.advance
    return false
  else if c = 'B'.toNat then
    emit .notWordBoundary
    lex p.advance
    return false
  else
    match ← p.parseAtomEscape fuel isBackward with
    | some atomValue =>
        p.emitAtomValue isBackward atomValue
        return true
    | none => return true

/-- The case `.` of `ParseAlternative`. -/
def parseDot (isBackward : Bool) : ParserM Unit := do
  emitPrev isBackward
  emit (if p.isDotAll then .all else .dots)
  emitPrev isBackward
  lex p.advance

/-- The case `[` of `ParseAlternative`. -/
def parseClass (fuel : Nat) (isBackward : Bool) : ParserM Unit := do
  lex p.advance
  emitPrev isBackward
  let isInvert := (← lex c0) == '^'.toNat
  onlyIf isInvert (lex p.advance)
  let rangeResult ← lex (p.parseClassRanges fuel)
  let rangeResult := if isInvert then rangeResult.invert p.isUtf16 else rangeResult
  emit (if rangeResult.highestValue ≤ 0xffff then .range rangeResult else .range32 rangeResult)
  emitPrev isBackward

/-- The character of a `PatternCharacter`, which `c0_` begins. -/
def readCharacter : Lex Nat := do
  let c ← c0
  if c > 128 then
    p.prev
    let pc ← getPc
    let (c, i) := p.icu.u8Next (p.source.drop pc)
    setPc (pc + i)
    return c
  else return c

/-- The last case of `ParseAlternative`. -/
def parsePatternCharacter (isBackward : Bool) : ParserM Unit := do
  emitPrev isBackward
  let c ← lex p.readCharacter
  let matchedChar := if p.isIgnoreCase then canonicalize p.icu.toCaseMapping c p.isUtf16 else c
  emitChar matchedChar
  emitPrev isBackward
  lex p.advance

/-! ## Quantifiers -/

/-- `ParserIntervalQuantifier`. -/
def parserIntervalQuantifier (fuel : Nat) : Lex (Option (Nat × Nat)) := do
  p.advance
  let min ← p.parseDecimalDigits fuel
  let c ← c0
  if c = ','.toNat then
    p.advance
    if (← c0) = '}'.toNat then
      p.advance
      return some (min, int32Max)
    else
      let max ← p.parseDecimalDigits fuel
      if (← c0) = '}'.toNat then
        p.advance
        return some (min, max)
      else return none
  else if c = '}'.toNat then
    p.advance
    return some (min, min)
  else
    p.advance
    return none

/-- What `ParseQuantifier` finds. -/
inductive Quantifier where
  | bounds (min max : Nat)
  /-- There is none. -/
  | absent
  /-- A `{` that begins no quantifier. -/
  | brace
deriving DecidableEq, Repr

/-- The `switch` of `ParseQuantifier`. -/
def readQuantifier (fuel : Nat) : Lex Quantifier := do
  let c ← c0
  if c = '*'.toNat then
    p.advance
    return .bounds 0 int32Max
  else if c = '+'.toNat then
    p.advance
    return .bounds 1 int32Max
  else if c = '?'.toNat then
    p.advance
    return .bounds 0 1
  else if c = '{'.toNat then
    let start := (← getPc) - 1
    match ← p.parserIntervalQuantifier fuel with
    | none =>
        p.backTo start
        return .brace
    | some (min, max) =>
        if min > max then parseError "Invalid repetition count" else return .bounds min max
  else return .absent

/-- Whether the quantifier is greedy. -/
def readGreedy : Lex Bool := do
  let c ← c0
  if c = '?'.toNat then
    p.advance
    return false
  else if c = '+'.toNat ∨ c = '*'.toNat ∨ c = '{'.toNat then parseError "nothing to repeat"
  else return true

/-- The size of `LOOP`. -/
def loopSize : Nat := 13

/-- The code that `ParseQuantifier` puts around an atom. -/
def emitQuantifier (atomBcStart captureStart captureEnd min max : Nat) (isGreedy : Bool) :
    ParserM Unit := do
  countStack
  insertAt atomBcStart .push
  let atomBcStart := atomBcStart + 1
  onlyIf (captureStart ≠ 0) (insertAt atomBcStart (.saveReset captureStart captureEnd))
  -- zero advance check
  onlyIf (max = int32Max) do
    countStack
    insertAt atomBcStart .pushChar
    emit (.checkChar loopSize)
  let size ← bytesFrom atomBcStart
  -- `atomBcStart - buffer_.GetSize() - loopOp.GetSize()`, as a `uint32_t`
  let offset := (2 ^ 32 - (size + loopSize) % 2 ^ 32) % 2 ^ 32
  emit (if isGreedy then .loopGreedy offset min max else .loop offset min max)
  onlyIf (min = 0) do
    let size ← bytesFrom atomBcStart
    insertAt atomBcStart (if isGreedy then .splitNext size else .splitFirst size)
  emit .pop

/-- `ParseQuantifier`. -/
def parseQuantifier (fuel atomBcStart captureStart captureEnd : Nat) : ParserM Unit := do
  match ← lex (p.readQuantifier fuel) with
  | .brace => return
  | .absent => setEmpty false
  | .bounds min max =>
      let isGreedy ← lex p.readGreedy
      let s ← getParser
      onlyIf (s.isEmpty = false) (emitQuantifier atomBcStart captureStart captureEnd min max isGreedy)
      setEmpty false

/-! ## The descent -/

/-- The code of a term is moved before the code of the terms that were parsed before it. -/
def moveTerm (start atomBcStart : Nat) : ParserM Unit := fun s =>
  .ok ((), { s with
    buffer := s.buffer.take start ++ s.buffer.drop atomBcStart ++
      (s.buffer.drop start).take (atomBcStart - start) })

/-- The rest of a round of `ParseAlternative`, behind the `switch`. -/
def finishTerm (fuel : Nat) (isBackward isAtom : Bool) (start atomBcStart captureIndex : Nat) :
    ParserM Unit := do
  onlyIf isAtom do
    let s ← getParser
    p.parseQuantifier fuel atomBcStart captureIndex (s.captureCount - 1)
  onlyIf isBackward (moveTerm start atomBcStart)

/-- `gotoOp.UpdateOpPara`. -/
def updateGoto (pos : Nat) : ParserM Unit := fun s =>
  .ok ((), { s with buffer := s.buffer.set pos (.goto (codeSize (s.buffer.drop (pos + 1)))) })

/-- `MATCH` at the end and the look around before the code from `start` on. -/
def emitLook (start : Nat) (negative : Bool) : ParserM Unit := do
  emit .matched
  let len ← bytesFrom start
  insertAt start (if negative then .negativeMatchAhead len else .matchAhead len)

/-- The name of a group in `ParseAssertionCapture`. -/
def parseGroupName (fuel : Nat) : ParserM Unit := do
  lex p.prev
  match ← lex (do p.parseGroupSpecifier fuel (← getPc)) with
  | none => lex (parseError "GroupName Syntax error.")
  | some (name, pc) =>
      lex (setPc pc)
      let s ← getParser
      if (findGroupName s.groupNames name).isSome then lex (parseError "Duplicate GroupName error.")
      else
        addGroupName name
        lex p.advance

/-- The terms other than groups: whether it is an atom. -/
def parseSimpleTerm (fuel : Nat) (isBackward : Bool) (c : Nat) : ParserM Bool := do
  let character : ParserM Bool := do
    p.parsePatternCharacter isBackward
    return true
  let bracket : ParserM Bool := do
    if p.isUtf16 then lex (parseError "syntax error") else character
  if c = '^'.toNat then
    emit .lineStart
    lex p.advance
    return false
  else if c = '$'.toNat then
    emit .lineEnd
    lex p.advance
    return false
  else if c = '\\'.toNat then p.parseEscape fuel isBackward
  else if c = '.'.toNat then
    p.parseDot isBackward
    return true
  else if c = '['.toNat then
    p.parseClass fuel isBackward
    return true
  else if c = '*'.toNat ∨ c = '+'.toNat ∨ c = '?'.toNat then lex (parseError "nothing to repeat")
  else if c = '{'.toNat then
    let start := (← lex getPc) - 1
    match ← lex (p.parserIntervalQuantifier fuel) with
    | some _ => lex (parseError "nothing to repeat")
    | none =>
        lex (p.backTo start)
        bracket
  else if c = '}'.toNat ∨ c = ']'.toNat then bracket
  else character

mutual

/-- `ParseDisjunction`. -/
def parseDisjunction : Nat → Bool → ParserM Unit
  | 0, _ => lex unfinished
  | fuel + 1, isBackward => do
      if (← lex c0) = ')'.toNat then setEmpty true
      else
        let start ← position
        parseAlternative fuel isBackward start
        parseAlternatives fuel isBackward start

/-- The loop of `ParseDisjunction`. -/
def parseAlternatives : Nat → Bool → Nat → ParserM Unit
  | 0, _, _ => lex unfinished
  | fuel + 1, isBackward, start => do
      let c ← lex c0
      onlyIf (c = '|'.toNat) do
        let len ← bytesFrom start
        insertAt start (.splitNext (len + 5))
        let pos ← position
        emit (.goto 0)
        lex p.advance
        let start' ← position
        parseAlternative fuel isBackward start'
        updateGoto pos
      let c ← lex c0
      onlyIf (c ≠ keyEof ∧ c ≠ ')'.toNat) (parseAlternatives fuel isBackward start)

/-- The loop of `ParseAlternative`. -/
def parseAlternative : Nat → Bool → Nat → ParserM Unit
  | 0, _, _ => lex unfinished
  | fuel + 1, isBackward, start => do
      let c ← lex c0
      onlyIf (c ≠ '|'.toNat ∧ c ≠ keyEof ∧ c ≠ ')'.toNat) do
        let atomBcStart ← position
        let (isAtom, captureIndex) ← (if c = '('.toNat then do
            lex p.advance
            let r ← parseAssertionCapture fuel isBackward false 0
            lex p.advance
            return r
          else do
            let isAtom ← p.parseSimpleTerm fuel isBackward c
            return (isAtom, 0) : ParserM (Bool × Nat))
        p.finishTerm fuel isBackward isAtom start atomBcStart captureIndex
        parseAlternative fuel isBackward start

/-- `ParseAssertionCapture`, with the values of `isAtom` and `*captureIndex` so far: these two again. -/
def parseAssertionCapture : Nat → Bool → Bool → Nat → ParserM (Bool × Nat)
  | 0, _, _, _ => lex unfinished
  | fuel + 1, isBackward, isAtom, captureIndex => do
      let capture : ParserM (Bool × Nat) := do
        let captureIndex ← countCapture
        emit (if isBackward then .saveEnd captureIndex else .saveStart captureIndex)
        parseDisjunction fuel isBackward
        emit (if isBackward then .saveStart captureIndex else .saveEnd captureIndex)
        return (true, captureIndex)
      let look (direction negative : Bool) : ParserM (Bool × Nat) := do
        lex p.advance
        let start ← position
        parseDisjunction fuel direction
        emitLook start negative
        return (isAtom, captureIndex)
      let named : ParserM (Bool × Nat) := do
        p.parseGroupName fuel
        capture
      let c ← lex c0
      let (isAtom, captureIndex) ← (if c = '?'.toNat then do
          lex p.advance
          let c ← lex c0
          if c = '='.toNat then look isBackward false
          else if c = '!'.toNat then look isBackward true
          else if c = '<'.toNat then do
            lex p.advance
            let c ← lex c0
            if c = '='.toNat then look true false
            else if c = '!'.toNat then look true true
            else named
          else if c = ':'.toNat then do
            lex p.advance
            parseDisjunction fuel isBackward
            return (true, captureIndex)
          else lex (parseError "? Syntax error.")
        else do
          addGroupName []
          capture : ParserM (Bool × Nat))
      let c ← lex c0
      if c ≠ ')'.toNat ∧ c ≠ keyEof then parseAssertionCapture fuel isBackward isAtom captureIndex
      else if c ≠ ')'.toNat then lex (parseError "capture syntax error")
      else return (isAtom, captureIndex)

end

/-- `Parse`: the instructions, without the header. -/
def parseBody (fuel : Nat) : ParserM Unit := do
  lex p.advance
  let captureIndex ← countCapture
  emit (.saveStart captureIndex)
  p.parseDisjunction fuel false
  if (← lex c0) ≠ keyEof then lex (parseError "extraneous characters at the end")
  else
    emit (.saveEnd captureIndex)
    emit .matchEnd

def initial : Parser where
  cursor := ⟨0, keyEof⟩
  captureCount := 0
  stackCount := 0
  isEmpty := false
  buffer := []
  groupNames := []
  counted := false

/-- `Parse`: the parser at its end. -/
def parse (fuel : Nat) : Except ParseFault Parser := do
  let (_, s) ← p.parseBody fuel initial
  return s

end Pattern

/-- The bytes of `buffer_` at the end of `Parse`. -/
def Parser.bytes (s : Parser) (flags : Nat) : List UInt8 :=
  let code := s.buffer.flatMap Instr.emit
  u32 (code.length + 16) ++ u32 s.captureCount ++ u32 s.stackCount ++ u32 flags ++ code

/-- What the ICU library says about the characters of ASCII, with the property `ASCII`. -/
def asciiIcu : Icu where
  toLower c := if 65 ≤ c ∧ c ≤ 90 then c + 32 else c
  toUpper c := if 97 ≤ c ∧ c ≤ 122 then c - 32 else c
  isIDStart := Pattern.isLetter
  isIDPart := Pattern.isUnicodePropertyValueCharacter
  u8Next bytes := ((bytes.headD 0).toNat, 1)
  closeOver c :=
    if Pattern.isLetter c then
      let lower := c ||| 0x20
      [lower - 32, lower] ++ (if lower = 'k'.toNat then [0x212A] else if lower = 's'.toNat then [0x17F] else [])
    else [c]
  property name value negate _ :=
    if name = "ASCII".toList.map (fun c => UInt8.ofNat c.toNat) ∧ value = [] ∧ negate = false then some [⟨0, 0x7F⟩] else none

/-- A pattern of ASCII characters. -/
def asciiPattern (text : List Char) (flags : Nat) : Pattern where
  icu := asciiIcu
  source := text.map fun c => UInt8.ofNat c.toNat
  flags := flags

end RegExp

end ArkRuntime
