import ArkRuntime.Misc.JsonGrammar
import ArkRuntime.Misc.Loop

/-!
# The JSON parser

`JsonParser::Launch` with `Utf8JsonParser` and `Utf16JsonParser` (`ecmascript/base/json_parser.h`). The parser
works on pointers into the memory of the string; for a sliced string this is the memory of its parent. Here a
pointer is an index into a buffer of code units. What the parser reads behind the buffer are units `0`, at which
each of its loops stops; a loop that could run there has as many rounds as the buffer has units.

The two parsers differ in how they store a string, not in what they accept. Heap objects are values: an array or
an object keeps its elements in their order. The double of a number that is not a short integer is the text that
`std::strtod` is called with.
-/

namespace ArkRuntime

namespace Json

inductive Outcome where
  | value (v : Value)
  | syntaxError (message : String)

/-- `current_`, `end_` and `range_`. -/
structure Parser where
  current : Nat
  end_ : Nat
  range : Nat
deriving DecidableEq, Repr

variable (mem : List Nat)

/-- The code unit that a pointer points to. -/
def unit (i : Nat) : Nat := mem.getD i 0

/-- The units from a pointer up to another one. -/
def slice (i j : Nat) : List Nat := (List.range' i (j - i)).map (unit mem)

/-! ## Loops over characters -/

def scanFrom (p : Nat → Bool) (stop : Nat) : Nat → Nat → Nat
  | 0, current => current
  | n + 1, current => if current ≠ stop ∧ p (unit mem current) = true then scanFrom p stop n (current + 1) else current

/-- `while (current != stop && p(*current)) current++`. -/
def scan (p : Nat → Bool) (stop current : Nat) : Nat := scanFrom mem p stop (mem.length - current) current

/-- `SkipStartWhiteSpace`. -/
def skipStartWhiteSpace (parser : Parser) : Parser :=
  { parser with current := scan mem isSpace parser.end_ parser.current }

/-- `GetNextNonSpaceChar`. -/
def getNextNonSpaceChar (parser : Parser) : Parser :=
  skipStartWhiteSpace mem { parser with current := parser.current + 1 }

/-- The loop of `SkipEndWhiteSpace`; the first argument is the distance from `current_`. -/
def trimFrom : Nat → Nat → Nat
  | 0, end_ => end_
  | n + 1, end_ => if isSpace (unit mem end_) then trimFrom n (end_ - 1) else end_

def skipEndWhiteSpace (parser : Parser) : Parser :=
  { parser with end_ := trimFrom mem (parser.end_ - parser.current) parser.end_ }

/-! ## Strings -/

/-- The loop of `ReadJsonStringRange`: the closing quote, and whether there is no escape before it. -/
def stringRangeFrom (range : Nat) : Nat → Nat → Bool → Option (Nat × Bool)
  | 0, _, _ => none
  | n + 1, current, isFastString =>
      if current = range then none
      else if unit mem current = 0x22 then some (current, isFastString)
      else if unit mem current = 0x5C then stringRangeFrom range n (current + 2) false
      else if unit mem current < 0x20 then none
      else stringRangeFrom range n (current + 1) isFastString

def readJsonStringRange (range current : Nat) : Option (Nat × Bool) :=
  stringRangeFrom mem range (mem.length + 1) current true

/-- `IsFastParseJsonString`, from behind the opening quote: `none` for an illegal character. -/
def isFastParseJsonString (current end_ : Nat) : Option Bool :=
  if (slice mem current end_).all (0x20 ≤ ·) then some (!(slice mem current end_).contains 0x5C) else none

/-- `ConvertStringUnicode`, on the units behind `u`: the code units, and what is behind them. -/
def convertStringUnicode : List Nat → Option (List Nat × List Nat)
  | a :: b :: c :: d :: rest => do
      let res ← hexUnit a b c d
      match rest with
      | 0x5C :: 0x75 :: more => do
          let (u16Str, behind) ← convertStringUnicode more
          return (res :: u16Str, behind)
      | _ => return ([res], rest)
  | _ => none

/-- `ParseBackslash`, on the units behind the backslash. -/
def parseBackslash : List Nat → Option (List Nat × List Nat)
  | [] => none
  | 0x22 :: rest => some ([0x22], rest)
  | 0x5C :: rest => some ([0x5C], rest)
  | 0x2F :: rest => some ([0x2F], rest)
  | 0x62 :: rest => some ([0x08], rest)
  | 0x66 :: rest => some ([0x0C], rest)
  | 0x6E :: rest => some ([0x0A], rest)
  | 0x72 :: rest => some ([0x0D], rest)
  | 0x74 :: rest => some ([0x09], rest)
  | 0x75 :: rest => convertStringUnicode rest
  | _ :: _ => none

/-- The loop of `SlowParseString`, on the units from `current_` to `end_`. -/
def slowParseFrom : Nat → List Nat → Option (List Nat)
  | _, [] => some []
  | 0, _ => none
  | n + 1, c :: rest =>
      if c = 0x5C then do
        let (res, behind) ← parseBackslash rest
        return res ++ (← slowParseFrom n behind)
      else do
        return c :: (← slowParseFrom n rest)

/-- `SlowParseString`. -/
def slowParseString (units : List Nat) : Option (List Nat) := slowParseFrom units.length units

/-- `ParseString`: the string, or the message of the error. -/
def parseString (inObjOrArr : Bool) (parser : Parser) : Except String (List Nat × Parser) :=
  if inObjOrArr then
    match readJsonStringRange mem parser.range (parser.current + 1) with
    | none => .error "Unexpected end Text in JSON"
    | some (end_, isFastString) =>
        if isFastString then
          .ok (slice mem (parser.current + 1) end_, { parser with current := end_ + 1, end_ })
        else
          match slowParseString (slice mem (parser.current + 1) end_) with
          | none => .error "Unexpected string in JSON"
          | some res => .ok (res, { parser with current := end_ + 1, end_ := end_ - 1 })
  else if unit mem parser.end_ ≠ 0x22 ∨ parser.current = parser.end_ then .error "Unexpected end Text in JSON"
  else
    match isFastParseJsonString mem (parser.current + 1) parser.end_ with
    | none => .error "Unexpected end Text in JSON"
    | some isFastString =>
        if isFastString then
          .ok (slice mem (parser.current + 1) parser.end_, { parser with current := parser.end_ + 1 })
        else
          match slowParseString (slice mem (parser.current + 1) parser.end_) with
          | none => .error "Unexpected string in JSON"
          | some res => .ok (res, { parser with current := parser.end_ + 1, end_ := parser.end_ - 1 })

/-! ## Numbers -/

def isNumberSignalCharacter (ch : Nat) : Bool :=
  ch = 0x2E || ch = 0x65 || ch = 0x45 || ch = 0x2B || ch = 0x2D

/-- `IsExponentNumber`: `current_` where it returns true. -/
def isExponentNumber (end_ current : Nat) : Option Nat :=
  if isDigit (unit mem current) then some current
  else if unit mem current = 0x2D ∨ unit mem current = 0x2B then
    if current = end_ then none
    else if isDigit (unit mem (current + 1)) then some (current + 1)
    else none
  else none

/-- The loop of `IsDecimalsLegal`. -/
def decimalsFrom (end_ : Nat) : Nat → Nat → Bool → Option Nat
  | 0, _, _ => none
  | n + 1, current, hasExponent =>
      if current = end_ then some current
      else if isDigit (unit mem (current + 1)) then decimalsFrom end_ n (current + 1) hasExponent
      else if unit mem (current + 1) = 0x65 ∨ unit mem (current + 1) = 0x45 then
        if hasExponent ∨ current + 1 = end_ then none
        else do decimalsFrom end_ n (← isExponentNumber mem end_ (current + 2)) true
      else none

/-- `IsDecimalsLegal`: `current_` where it returns true. -/
def isDecimalsLegal (end_ current : Nat) (hasExponent : Bool) : Option Nat :=
  if current = end_ then
    if isDigit (unit mem (current + 1)) then decimalsFrom mem end_ (mem.length + 1) (current + 1) hasExponent
    else none
  else decimalsFrom mem end_ (mem.length + 1) current hasExponent

/-- `IsExponentLegal`: `current_` where it returns true. -/
def isExponentLegal (end_ current : Nat) (hasExponent : Bool) : Option Nat :=
  if hasExponent ∨ current = end_ then none
  else do
    let current ← isExponentNumber mem end_ (current + 1)
    let current := scan mem isDigit end_ current
    if current = end_ then return current else none

/-- `CheckZeroBeginNumber`. -/
def checkZeroBeginNumber (end_ current : Nat) : Bool :=
  if current = end_ then true
  else if unit mem (current + 1) = 0x2E then (isDecimalsLegal mem end_ (current + 1) false).isSome
  else if unit mem (current + 1) = 0x65 ∨ unit mem (current + 1) = 0x45 then
    (isExponentLegal mem end_ (current + 1) false).isSome
  else false

/-- The loop of `CheckNonZeroBeginNumber`. -/
def nonZeroFrom (end_ : Nat) : Nat → Nat → Bool
  | 0, _ => false
  | n + 1, current =>
      if current = end_ then true
      else if isDigit (unit mem (current + 1)) then nonZeroFrom end_ n (current + 1)
      else if unit mem (current + 1) = 0x2E then
        match isDecimalsLegal mem end_ (current + 1) false with
        | none => false
        | some current => nonZeroFrom end_ n current
      else if unit mem (current + 1) = 0x65 ∨ unit mem (current + 1) = 0x45 then
        match isExponentLegal mem end_ (current + 1) false with
        | none => false
        | some current => nonZeroFrom end_ n current
      else false

def checkNonZeroBeginNumber (end_ current : Nat) : Bool := nonZeroFrom mem end_ (mem.length + 1) current

/-- The checks of `ParseNumber`. -/
def checkNumber (end_ current : Nat) : Bool :=
  if unit mem current = 0x2D ∧ current = end_ then false
  else
    let current := if unit mem current = 0x2D then current + 1 else current
    if unit mem current = 0x30 then checkZeroBeginNumber mem end_ current
    else if 0x31 ≤ unit mem current ∧ unit mem current ≤ 0x39 then checkNonZeroBeginNumber mem end_ current
    else false

/-- What `ReadNumberRange` finds: an integer and the pointer behind it, or the last character of a number. -/
inductive NumberRange where
  | fast (fastInteger : Int) (current : Nat)
  | slow (end_ : Nat)

/-- A number may be followed by it. -/
def isNumberEnd (c : Nat) : Bool := c = 0x2C || c = 0x5D || c = 0x7D

/-- The last loop of `ReadNumberRange`. -/
def readNumberEnd (range current : Nat) : Option NumberRange :=
  let end_ := scan mem (fun c => isDigit c || isNumberSignalCharacter c) range current
  if end_ = range then some (.slow (range - 1))
  else
    let behind := scan mem isSpace range end_
    if behind ≠ range then
      if isNumberEnd (unit mem behind) then some (.slow (end_ - 1)) else none
    else if unit mem behind = 0x5D ∨ unit mem behind = 0x7D then some (.slow (end_ - 1))
    else none

/-- `ReadNumberRange`. -/
def readNumberRange (range current : Nat) : Option NumberRange :=
  let sign : Int := if unit mem current = 0x2D then -1 else 1
  let current := if unit mem current = 0x2D then current + 1 else current
  if unit mem current = 0x30 then readNumberEnd mem range (current + 1)
  else
    let advance := scan mem isDigit range current
    if current = advance then none
    else if advance - current ≤ 9 ∧ isNumberEnd (unit mem advance) = true then
      some (.fast ((digitsValue (slice mem current advance) : Int) * sign) advance)
    else readNumberEnd mem range current

/-- `ParseNumber`. -/
def parseNumber (inObjOrArr : Bool) (parser : Parser) : Except String (JSNumber × Parser) :=
  let slow (end_ : Nat) : Except String (JSNumber × Parser) :=
    if checkNumber mem end_ parser.current then
      .ok (numberOf ((slice mem parser.current (end_ + 1)).map (· % 256)), { parser with current := end_ + 1, end_ })
    else .error "Unexpected Number in JSON"
  if inObjOrArr then
    match readNumberRange mem parser.range parser.current with
    | none => .error "Unexpected Number in JSON Array Or Object"
    | some (.fast fastInteger current) => .ok (.int fastInteger, { parser with current })
    | some (.slow end_) => slow end_
  else slow parser.end_

/-! ## Texts -/

/-- `MatchText` behind a check of the remaining length: the three literals. -/
def parseLiteral (text : List Nat) (v : Value) (parser : Parser) : Except String (Value × Parser) :=
  let remainingLength : Int := ((parser.range : Int) - parser.current) % 2 ^ 32
  if remainingLength < (text.length : Int) - 1 then .error "Unexpected Text in JSON"
  else if slice mem (parser.current + 1) (parser.current + text.length) = text.tail then
    .ok (v, { parser with current := parser.current + text.length })
  else .error "Unexpected Text in JSON"

inductive Tokens where
  | object
  | array
  | number
  | string
  | literalTrue
  | literalFalse
  | literalNull
  | tokenIllegal
deriving DecidableEq, Repr

/-- `ParseToken`, of a character. -/
def parseToken : Nat → Tokens
  | 0x7B => .object
  | 0x5B => .array
  | 0x22 => .string
  | 0x2D => .number
  | 0x74 => .literalTrue
  | 0x66 => .literalFalse
  | 0x6E => .literalNull
  | c => if isDigit c then .number else .tokenIllegal

inductive ContinuationType where
  | return
  | array
  | object
deriving DecidableEq, Repr

structure JsonContinuation where
  type : ContinuationType
  index : Nat
deriving DecidableEq, Repr

/-- Where the loops of `ParseJSONText` are: before a token, or behind a value. -/
inductive Mode where
  | token
  | behind (parseValue : Value)

structure ParseState where
  parser : Parser
  continuation : JsonContinuation
  /-- The last one first. -/
  continuationList : List JsonContinuation
  elementsList : List Value
  propertyList : List Value
  mode : Mode

/-- `CreateJsonArray`. -/
def createJsonArray (continuation : JsonContinuation) (elementsList : List Value) : Value :=
  .array (elementsList.drop continuation.index)

/-- Names and values in turn. -/
def propertyPairs : List Value → List (List Nat × Value)
  | .string key :: value :: rest => (key, value) :: propertyPairs rest
  | _ => []

/-- `CreateJsonObject`. -/
def createJsonObject (continuation : JsonContinuation) (propertyList : List Value) : Value :=
  .object (propertyPairs (propertyList.drop continuation.index))

/-- A name and the colon behind it, from the opening quote. -/
def parseName (parser : Parser) : Except String (List Nat × Parser) :=
  if unit mem parser.current ≠ 0x22 then .error "Unexpected Object Prop in JSON"
  else do
    let (name, parser) ← parseString mem true parser
    let parser := skipStartWhiteSpace mem parser
    if unit mem parser.current ≠ 0x3A then .error "Unexpected Object in JSON"
    else return (name, { parser with current := parser.current + 1 })

/-- The state behind a value that is one token. -/
def behindToken {α : Type} (s : ParseState) (make : α → Value) : Except String (α × Parser) → ParseState ⊕ Outcome
  | .ok (v, parser) => .inl { s with parser, mode := .behind (make v) }
  | .error message => .inr (.syntaxError message)

def IsInObjOrArray (type : ContinuationType) : Bool := type = .array || type = .object

/-- A round of the first loop of `ParseJSONText`. -/
def tokenRound (s : ParseState) : ParseState ⊕ Outcome :=
  let parser := skipStartWhiteSpace mem s.parser
  let inObjOrArr := IsInObjOrArray s.continuation.type
  match parseToken (unit mem parser.current) with
  | .object =>
      let parser := getNextNonSpaceChar mem parser
      if unit mem parser.current = 0x7D then
        .inl { s with parser := getNextNonSpaceChar mem parser, mode := .behind (.object []) }
      else
        match parseName mem (skipStartWhiteSpace mem parser) with
        | .error message => .inr (.syntaxError message)
        | .ok (name, parser) =>
            .inl { s with
              parser
              continuation := ⟨.object, s.propertyList.length⟩
              continuationList := s.continuation :: s.continuationList
              propertyList := s.propertyList ++ [.string name] }
  | .array =>
      let parser := getNextNonSpaceChar mem parser
      if unit mem parser.current = 0x5D then
        .inl { s with parser := getNextNonSpaceChar mem parser, mode := .behind (.array []) }
      else
        .inl { s with
          parser
          continuation := ⟨.array, s.elementsList.length⟩
          continuationList := s.continuation :: s.continuationList }
  | .literalTrue => behindToken s id (parseLiteral mem trueText .true parser)
  | .literalFalse => behindToken s id (parseLiteral mem falseText .false parser)
  | .literalNull => behindToken s id (parseLiteral mem nullText .null parser)
  | .number => behindToken s .number (parseNumber mem inObjOrArr parser)
  | .string => behindToken s .string (parseString mem inObjOrArr parser)
  | .tokenIllegal => .inr (.syntaxError "Unexpected Text in JSON")

/-- A round of the second loop of `ParseJSONText`. -/
def behindRound (s : ParseState) (parseValue : Value) : ParseState ⊕ Outcome :=
  match s.continuation.type with
  | .return =>
      if s.parser.current ≤ s.parser.range then .inr (.syntaxError "Unexpected Text in JSON")
      else .inr (.value parseValue)
  | .array =>
      let elementsList := s.elementsList ++ [parseValue]
      let parser := skipStartWhiteSpace mem s.parser
      if unit mem parser.current = 0x2C then
        .inl { s with parser := { parser with current := parser.current + 1 }, elementsList, mode := .token }
      else if unit mem parser.current ≠ 0x5D then .inr (.syntaxError "Unexpected Array in JSON")
      else
        .inl { s with
          parser := { parser with current := parser.current + 1 }
          elementsList := elementsList.take s.continuation.index
          continuation := s.continuationList.headD ⟨.return, 0⟩
          continuationList := s.continuationList.tail
          mode := .behind (createJsonArray s.continuation elementsList) }
  | .object =>
      let propertyList := s.propertyList ++ [parseValue]
      let parser := skipStartWhiteSpace mem s.parser
      if unit mem parser.current = 0x2C then
        match parseName mem (getNextNonSpaceChar mem parser) with
        | .error message => .inr (.syntaxError message)
        | .ok (name, parser) => .inl { s with parser, propertyList := propertyList ++ [.string name], mode := .token }
      else if unit mem parser.current ≠ 0x7D then .inr (.syntaxError "Unexpected Object in JSON")
      else
        .inl { s with
          parser := { parser with current := parser.current + 1 }
          propertyList := propertyList.take s.continuation.index
          continuation := s.continuationList.headD ⟨.return, 0⟩
          continuationList := s.continuationList.tail
          mode := .behind (createJsonObject s.continuation propertyList) }

def parseStep (s : ParseState) : ParseState ⊕ Outcome :=
  match s.mode with
  | .token => tokenRound mem s
  | .behind parseValue => behindRound mem s parseValue

/-- `ParseJSONText`. -/
def parseJSONText (parser : Parser) : Option Outcome :=
  iter (parseStep mem) (mem.length + 2) ⟨parser, ⟨.return, 0⟩, [], [], [], .token⟩

/-- `Launch`, on the units from `begin` up to `end`. -/
def launch (start stop : Nat) : Option Outcome :=
  if start = stop then some (.syntaxError "Unexpected Text in JSON")
  else
    let parser := skipEndWhiteSpace mem ⟨start, stop - 1, 0⟩
    parseJSONText mem { parser with range := parser.end_ }

end Json

end ArkRuntime
