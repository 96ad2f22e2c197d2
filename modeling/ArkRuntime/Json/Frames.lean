import ArkRuntime.Json.NumberTokens

/-!
# The stack of the JSON parser

`ParseJSONText` keeps the open arrays and objects in three vectors: where each one starts in `elementsList` or
`propertyList`, and the values so far. Here they are a stack of frames, one for each open array or object, and the
loops of `ParseJSONText` are steps of a machine with this stack.
-/

namespace ArkRuntime

namespace Json

variable {mem : List Nat}

/-- An open array with its values, or an open object with its properties and the name before the next value. -/
inductive Frame where
  | array (vs : List Value)
  | object (ps : List (List Nat × Value)) (key : List Nat)

def elementsOf : List Frame → List Value
  | [] => []
  | .array vs :: fs => elementsOf fs ++ vs
  | .object _ _ :: fs => elementsOf fs

def flatten (ps : List (List Nat × Value)) : List Value := ps.flatMap fun p => [.string p.1, p.2]

def propertiesOf : List Frame → List Value
  | [] => []
  | .array _ :: fs => propertiesOf fs
  | .object ps key :: fs => propertiesOf fs ++ flatten ps ++ [.string key]

def continuationOf : List Frame → JsonContinuation
  | [] => ⟨.return, 0⟩
  | .array _ :: fs => ⟨.array, (elementsOf fs).length⟩
  | .object _ _ :: fs => ⟨.object, (propertiesOf fs).length⟩

def continuationsOf : List Frame → List JsonContinuation
  | [] => []
  | _ :: fs => continuationOf fs :: continuationsOf fs

/-- Where the machine is. -/
structure Config where
  parser : Parser
  frames : List Frame
  mode : Mode

def Config.state (c : Config) : ParseState :=
  ⟨c.parser, continuationOf c.frames, continuationsOf c.frames, elementsOf c.frames, propertiesOf c.frames, c.mode⟩

/-! ## Steps -/

def tokenBehind {α : Type} (fs : List Frame) (make : α → Value) : Except String (α × Parser) → Config ⊕ Outcome
  | .ok (v, parser) => .inl ⟨parser, fs, .behind (make v)⟩
  | .error message => .inr (.syntaxError message)

/-- A step from before a token. -/
def tokenStep (mem : List Nat) (parser : Parser) (fs : List Frame) : Config ⊕ Outcome :=
  let parser := skipStartWhiteSpace mem parser
  match parseToken (unit mem parser.current) with
  | .object =>
      let parser := getNextNonSpaceChar mem parser
      if unit mem parser.current = 0x7D then .inl ⟨getNextNonSpaceChar mem parser, fs, .behind (.object [])⟩
      else
        match parseName mem (skipStartWhiteSpace mem parser) with
        | .error message => .inr (.syntaxError message)
        | .ok (name, parser) => .inl ⟨parser, .object [] name :: fs, .token⟩
  | .array =>
      let parser := getNextNonSpaceChar mem parser
      if unit mem parser.current = 0x5D then .inl ⟨getNextNonSpaceChar mem parser, fs, .behind (.array [])⟩
      else .inl ⟨parser, .array [] :: fs, .token⟩
  | .literalTrue => tokenBehind fs id (parseLiteral mem trueText .true parser)
  | .literalFalse => tokenBehind fs id (parseLiteral mem falseText .false parser)
  | .literalNull => tokenBehind fs id (parseLiteral mem nullText .null parser)
  | .number => tokenBehind fs .number (parseNumber mem (!fs.isEmpty) parser)
  | .string => tokenBehind fs .string (parseString mem (!fs.isEmpty) parser)
  | .tokenIllegal => .inr (.syntaxError "Unexpected Text in JSON")

/-- A step from behind a value. -/
def behindStep (mem : List Nat) (parser : Parser) (v : Value) : List Frame → Config ⊕ Outcome
  | [] =>
      if parser.current ≤ parser.range then .inr (.syntaxError "Unexpected Text in JSON")
      else .inr (.value v)
  | .array vs :: fs =>
      let parser := skipStartWhiteSpace mem parser
      if unit mem parser.current = 0x2C then
        .inl ⟨{ parser with current := parser.current + 1 }, .array (vs ++ [v]) :: fs, .token⟩
      else if unit mem parser.current ≠ 0x5D then .inr (.syntaxError "Unexpected Array in JSON")
      else .inl ⟨{ parser with current := parser.current + 1 }, fs, .behind (.array (vs ++ [v]))⟩
  | .object ps key :: fs =>
      let parser := skipStartWhiteSpace mem parser
      if unit mem parser.current = 0x2C then
        match parseName mem (getNextNonSpaceChar mem parser) with
        | .error message => .inr (.syntaxError message)
        | .ok (name, parser) => .inl ⟨parser, .object (ps ++ [(key, v)]) name :: fs, .token⟩
      else if unit mem parser.current ≠ 0x7D then .inr (.syntaxError "Unexpected Object in JSON")
      else .inl ⟨{ parser with current := parser.current + 1 }, fs, .behind (.object (ps ++ [(key, v)]))⟩

def machineStep (mem : List Nat) (c : Config) : Config ⊕ Outcome :=
  match c.mode with
  | .token => tokenStep mem c.parser c.frames
  | .behind v => behindStep mem c.parser v c.frames

/-! ## The machine is the parser -/

theorem isInObjOrArray_eq (fs : List Frame) : IsInObjOrArray (continuationOf fs).type = !fs.isEmpty := by
  cases fs with
  | nil => rfl
  | cons f fs => cases f <;> rfl

theorem propertyPairs_flatten (ps : List (List Nat × Value)) : propertyPairs (flatten ps) = ps := by
  induction ps with
  | nil => rfl
  | cons p ps ih =>
    have split : flatten (p :: ps) = .string p.1 :: p.2 :: flatten ps := rfl
    rw [split, propertyPairs, ih]

theorem flatten_append (ps : List (List Nat × Value)) (key : List Nat) (v : Value) :
    flatten (ps ++ [(key, v)]) = flatten ps ++ [.string key, v] := by
  rw [flatten, List.flatMap_append]
  rfl

theorem behindToken_eq {α : Type} (parser : Parser) (fs : List Frame) (make : α → Value)
    (result : Except String (α × Parser)) :
    behindToken (Config.state ⟨parser, fs, .token⟩) make result = (tokenBehind fs make result).map Config.state id := by
  cases result with
  | error message => rfl
  | ok pair => rfl

theorem tokenRound_eq (parser : Parser) (fs : List Frame) :
    tokenRound mem (Config.state ⟨parser, fs, .token⟩) = (tokenStep mem parser fs).map Config.state id := by
  have nested := isInObjOrArray_eq fs
  simp only [tokenRound, tokenStep]
  simp only [show (Config.state ⟨parser, fs, .token⟩).parser = parser from rfl,
    show (Config.state ⟨parser, fs, .token⟩).continuation = continuationOf fs from rfl, nested]
  cases parseToken (unit mem (skipStartWhiteSpace mem parser).current) with
  | object =>
    simp only
    split
    · rfl
    · cases parseName mem (skipStartWhiteSpace mem (getNextNonSpaceChar mem (skipStartWhiteSpace mem parser))) with
      | error message => rfl
      | ok pair =>
        obtain ⟨name, parser'⟩ := pair
        simp [Config.state, continuationOf, continuationsOf, elementsOf, propertiesOf, flatten]
  | array =>
    simp only
    split
    · rfl
    · simp [Config.state, continuationOf, continuationsOf, elementsOf, propertiesOf]
  | tokenIllegal => rfl
  | _ => exact behindToken_eq parser fs _ _

theorem behindRound_eq (parser : Parser) (fs : List Frame) (v : Value) :
    behindRound mem (Config.state ⟨parser, fs, .behind v⟩) v = (behindStep mem parser v fs).map Config.state id := by
  cases fs with
  | nil =>
    by_cases inside : parser.current ≤ parser.range
    · simp [behindRound, Config.state, continuationOf, behindStep, inside]
    · simp [behindRound, Config.state, continuationOf, behindStep, inside]
  | cons f fs =>
    have top : (continuationsOf (f :: fs)).headD ⟨.return, 0⟩ = continuationOf fs := rfl
    cases f with
    | array vs =>
      have drop : (elementsOf fs ++ vs ++ [v]).drop (elementsOf fs).length = vs ++ [v] := by
        rw [List.append_assoc, List.drop_left]
      have take : (elementsOf fs ++ vs ++ [v]).take (elementsOf fs).length = elementsOf fs := by
        rw [List.append_assoc, List.take_left]
      change behindRound mem ⟨parser, ⟨.array, (elementsOf fs).length⟩, continuationsOf (.array vs :: fs),
        elementsOf fs ++ vs, propertiesOf fs, .behind v⟩ v = _
      simp only [behindRound, behindStep]
      by_cases comma : unit mem (skipStartWhiteSpace mem parser).current = 0x2C
      · rw [if_pos comma, if_pos comma]
        simp [Config.state, continuationOf, continuationsOf, elementsOf, propertiesOf]
      · rw [if_neg comma, if_neg comma]
        by_cases close : unit mem (skipStartWhiteSpace mem parser).current ≠ 0x5D
        · rw [if_pos close, if_pos close]
          rfl
        · rw [if_neg close, if_neg close, createJsonArray, drop, take, top]
          rfl
    | object ps key =>
      have whole : propertiesOf fs ++ flatten ps ++ [.string key] ++ [v] = propertiesOf fs ++ flatten (ps ++ [(key, v)]) := by
        rw [flatten_append]
        simp
      have drop : (propertiesOf fs ++ flatten (ps ++ [(key, v)])).drop (propertiesOf fs).length =
          flatten (ps ++ [(key, v)]) := List.drop_left
      have take : (propertiesOf fs ++ flatten (ps ++ [(key, v)])).take (propertiesOf fs).length = propertiesOf fs :=
        List.take_left
      change behindRound mem ⟨parser, ⟨.object, (propertiesOf fs).length⟩, continuationsOf (.object ps key :: fs),
        elementsOf fs, propertiesOf fs ++ flatten ps ++ [.string key], .behind v⟩ v = _
      simp only [behindRound, behindStep, whole]
      by_cases comma : unit mem (skipStartWhiteSpace mem parser).current = 0x2C
      · rw [if_pos comma, if_pos comma]
        cases parseName mem (getNextNonSpaceChar mem (skipStartWhiteSpace mem parser)) with
        | error message => rfl
        | ok pair =>
          obtain ⟨name, parser'⟩ := pair
          simp [Config.state, continuationOf, continuationsOf, elementsOf, propertiesOf]
      · rw [if_neg comma, if_neg comma]
        by_cases close : unit mem (skipStartWhiteSpace mem parser).current ≠ 0x7D
        · rw [if_pos close, if_pos close]
          rfl
        · rw [if_neg close, if_neg close, createJsonObject, drop, take, top, propertyPairs_flatten]
          rfl

theorem parseStep_eq (mem : List Nat) (c : Config) : parseStep mem c.state = (machineStep mem c).map Config.state id := by
  obtain ⟨parser, fs, mode⟩ := c
  cases mode with
  | token => exact tokenRound_eq parser fs
  | behind v => exact behindRound_eq parser fs v

/-- The rounds of the loops are the steps of the machine. -/
theorem iter_parseStep (n : Nat) (c : Config) : iter (parseStep mem) n c.state = iter (machineStep mem) n c := by
  induction n generalizing c with
  | zero => rfl
  | succ n ih =>
    have step := parseStep_eq mem c
    cases next : machineStep mem c with
    | inl c' =>
      rw [next] at step
      rw [iter_inl n step, iter_inl n next]
      exact ih c'
    | inr r =>
      rw [next] at step
      rw [iter_inr n step, iter_inr n next]
      rfl

theorem parseJSONText_eq (parser : Parser) :
    parseJSONText mem parser = iter (machineStep mem) (mem.length + 2) ⟨parser, [], .token⟩ :=
  iter_parseStep (mem.length + 2) ⟨parser, [], .token⟩

end Json

end ArkRuntime
