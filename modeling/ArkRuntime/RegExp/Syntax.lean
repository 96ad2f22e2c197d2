import ArkRuntime.RegExp.ParserModel

/-!
# Patterns as trees

A pattern without its text: the tree that `RegExpParser` goes through while it reads, and the code that
it emits for such a tree. The parser knows some numbers and names besides the direction when it comes to a
term, its `Scope`; `compile` says what a tree does to them. What the parser does is put together from a reading
of the text and `compile` in `Reading`.

The code of an alternative of a look behind is the code of its terms in reverse order, and a look ahead
in a look behind keeps the direction. A quantifier is not compiled where `isEmpty_` is set.
-/

namespace ArkRuntime

namespace RegExp

/-- `^`, `$`, `\b` and `\B`. -/
inductive Assertion where
  | lineStart
  | lineEnd
  | wordBoundary
  | notWordBoundary
deriving DecidableEq, Repr

def Assertion.instr : Assertion → Instr
  | lineStart => .lineStart
  | lineEnd => .lineEnd
  | wordBoundary => .wordBoundary
  | notWordBoundary => .notWordBoundary

/-- What an atom for one character accepts. -/
inductive CharTest where
  | char (value : Nat)
  | all
  | dots
  | range (rangeSet : RangeSet)
  | range32 (rangeSet : RangeSet)
deriving DecidableEq, Repr

def CharTest.instr : CharTest → Instr
  | char value => if value ≤ 0xffff then .char value else .char32 value
  | all => .all
  | dots => .dots
  | range rangeSet => .range rangeSet
  | range32 rangeSet => .range32 rangeSet

/-- A term other than a group. -/
inductive Leaf where
  | assertion (a : Assertion)
  /-- An atom for one character, and whether a look behind has a `PREV` after it. -/
  | character (test : CharTest) (closed : Bool)
  /-- An escape that no character belongs to. -/
  | nothing
  /-- A decimal escape. -/
  | reference (capture : Nat)
  /-- A reference by name, with what a search of the pattern for the name gives. There is no search where
      a group with the name is known. -/
  | named (name : List UInt8) (sought : Option Nat)
deriving DecidableEq, Repr

/-- What follows a term. -/
inductive Suffix where
  /-- `ParseQuantifier` is not called or returns early. -/
  | kept
  /-- There is no quantifier. -/
  | once
  | bounds (min max : Nat) (isGreedy : Bool)
deriving DecidableEq, Repr

inductive Tree where
  | leaf (l : Leaf)
  /-- A capture group, with the empty name if it has none. -/
  | group (name : List UInt8) (body : Tree)
  /-- `(?:)`. -/
  | plain (body : Tree)
  | look (behind negative : Bool) (body : Tree)
  /-- A disjunction at whose start is a `)`. -/
  | void
  /-- The end of an alternative. -/
  | nil
  | cons (term : Tree) (suffix : Suffix) (rest : Tree)
  | alt (left right : Tree)
deriving DecidableEq, Repr

/-- The members of the parser that the emitted code depends on. -/
structure Scope where
  captureCount : Nat
  stackCount : Nat
  isEmpty : Bool
  groupNames : List (List UInt8)
deriving DecidableEq, Repr

def Parser.scope (s : Parser) : Scope := ⟨s.captureCount, s.stackCount, s.isEmpty, s.groupNames⟩

/-- The scope inside a group. -/
def Scope.enter (s : Scope) (name : List UInt8) : Scope :=
  { s with captureCount := s.captureCount + 1, groupNames := s.groupNames ++ [name] }

/-! ## Code -/

def referenceCode (capture : Nat) (isBackward : Bool) : List Instr :=
  [if isBackward then .backwardBackreference capture else .backreference capture]

def prevCode (isBackward : Bool) : List Instr := if isBackward then [.prev] else []

/-- The number that a name stands for behind the groups `groupNames`. -/
def referenceNumber (groupNames : List (List UInt8)) (name : List UInt8) (sought : Option Nat) : Nat :=
  (Pattern.findGroupName groupNames name <|> sought).getD 0

def Leaf.code : Leaf → Bool → List (List UInt8) → List Instr
  | assertion a, _, _ => [a.instr]
  | character test closed, isBackward, _ =>
      prevCode isBackward ++ [test.instr] ++ (if closed then prevCode isBackward else [])
  | nothing, _, _ => []
  | reference capture, isBackward, _ => referenceCode capture isBackward
  | named name sought, isBackward, groupNames =>
      referenceCode (referenceNumber groupNames name sought) isBackward

def groupCode (capture : Nat) (isBackward : Bool) (body : List Instr) : List Instr :=
  [if isBackward then .saveEnd capture else .saveStart capture] ++ body ++
    [if isBackward then .saveStart capture else .saveEnd capture]

def lookCode (negative : Bool) (body : List Instr) : List Instr :=
  (if negative then .negativeMatchAhead (codeSize body + 1) else .matchAhead (codeSize body + 1)) ::
    (body ++ [.matched])

def altCode (left right : List Instr) : List Instr :=
  .splitNext (codeSize left + 5) :: (left ++ .goto (codeSize right) :: right)

/-- The instructions between `SPLIT` and `LOOP`. -/
def iterationCode (first last max : Nat) (body : List Instr) : List Instr :=
  (if max = int32Max then [.pushChar] else []) ++ (if first ≠ 0 then [.saveReset first last] else []) ++
    body ++ (if max = int32Max then [.checkChar Pattern.loopSize] else [])

/-- An offset back over some code. -/
def backOffset (size : Nat) : Nat := (2 ^ 32 - (size + Pattern.loopSize) % 2 ^ 32) % 2 ^ 32

def loopInstr (isGreedy : Bool) (offset min max : Nat) : Instr :=
  if isGreedy then .loopGreedy offset min max else .loop offset min max

def splitInstr (isGreedy : Bool) (offset : Nat) : Instr :=
  if isGreedy then .splitNext offset else .splitFirst offset

/-- The iterations with the `LOOP` behind them. -/
def loopCode (first last min max : Nat) (isGreedy : Bool) (body : List Instr) : List Instr :=
  let iteration := iterationCode first last max body
  iteration ++ [loopInstr isGreedy (backOffset (codeSize iteration)) min max]

def quantifierCode (first last min max : Nat) (isGreedy : Bool) (body : List Instr) : List Instr :=
  let loop := loopCode first last min max isGreedy body
  .push :: ((if min = 0 then [splitInstr isGreedy (codeSize loop)] else []) ++ loop ++ [.pop])

/-- The code of a term with what follows it; `first` is the number of the group that the term is, or 0. -/
def Suffix.code (first : Nat) (body : List Instr) (s : Scope) : Suffix → List Instr
  | kept => body
  | once => body
  | bounds min max isGreedy =>
      if s.isEmpty then body
      else quantifierCode first (s.captureCount - 1) min max isGreedy body

def Suffix.scope (s : Scope) : Suffix → Scope
  | kept => s
  | once => { s with isEmpty := false }
  | bounds _ max _ =>
      if s.isEmpty then { s with isEmpty := false }
      else { s with stackCount := s.stackCount + (if max = int32Max then 2 else 1) }

namespace Tree

/-- `ParseQuantifier` is called for the term. -/
def isAtom : Tree → Bool
  | leaf (.assertion _) => false
  | look _ _ _ => false
  | _ => true

/-- The value of `captureIndex` behind a term that begins where `count` groups are open or done. -/
def captureIndex (count : Nat) : Tree → Nat
  | group _ _ => count
  | _ => 0

/-- The direction in which the body of a look around is compiled. -/
def direction (behind isBackward : Bool) : Bool := behind || isBackward

/-- The scope behind a tree. -/
def scope : Tree → Scope → Scope
  | leaf _, s => s
  | group name body, s => body.scope (s.enter name)
  | plain body, s => body.scope s
  | look _ _ body, s => body.scope s
  | void, s => { s with isEmpty := true }
  | nil, s => s
  | cons term suffix rest, s => rest.scope (suffix.scope (term.scope s))
  | alt left right, s => right.scope (left.scope s)

/-- The code that is emitted for a tree. -/
def compile : Tree → Bool → Scope → List Instr
  | leaf l, isBackward, s => l.code isBackward s.groupNames
  | group name body, isBackward, s =>
      groupCode s.captureCount isBackward (body.compile isBackward (s.enter name))
  | plain body, isBackward, s => body.compile isBackward s
  | look behind negative body, isBackward, s =>
      lookCode negative (body.compile (direction behind isBackward) s)
  | void, _, _ => []
  | nil, _, _ => []
  | cons term suffix rest, isBackward, s =>
      let code := suffix.code (term.captureIndex s.captureCount) (term.compile isBackward s) (term.scope s)
      let behind := rest.compile isBackward (suffix.scope (term.scope s))
      if isBackward then behind ++ code else code ++ behind
  | alt left right, isBackward, s =>
      altCode (left.compile isBackward s) (right.compile isBackward (left.scope s))

/-- The number of capture groups. -/
def groups : Tree → Nat
  | group _ body => body.groups + 1
  | plain body => body.groups
  | look _ _ body => body.groups
  | cons term _ rest => term.groups + rest.groups
  | alt left right => left.groups + right.groups
  | _ => 0

/-- The names of the capture groups, in their order. -/
def names : Tree → List (List UInt8)
  | group name body => name :: body.names
  | plain body => body.names
  | look _ _ body => body.names
  | cons term _ rest => term.names ++ rest.names
  | alt left right => left.names ++ right.names
  | _ => []

end Tree

theorem Suffix.captureCount_scope (suffix : Suffix) (s : Scope) :
    (suffix.scope s).captureCount = s.captureCount := by
  cases suffix with
  | kept => rfl
  | once => rfl
  | bounds min max isGreedy =>
    rw [Suffix.scope]
    split_ifs <;> rfl

theorem Tree.captureCount_scope (t : Tree) (s : Scope) :
    (t.scope s).captureCount = s.captureCount + t.groups := by
  induction t generalizing s with
  | leaf l => rfl
  | group name body ih =>
    rw [scope, ih, groups]
    exact Nat.add_right_comm _ _ _
  | plain body ih => exact ih s
  | look behind negative body ih => exact ih s
  | void => rfl
  | nil => rfl
  | cons term suffix rest ihTerm ihRest =>
    rw [scope, ihRest, Suffix.captureCount_scope, ihTerm, groups, Nat.add_assoc]
  | alt left right ihLeft ihRight => rw [scope, ihRight, ihLeft, groups, Nat.add_assoc]

theorem Suffix.groupNames_scope (suffix : Suffix) (s : Scope) :
    (suffix.scope s).groupNames = s.groupNames := by
  cases suffix with
  | kept => rfl
  | once => rfl
  | bounds min max isGreedy =>
    rw [Suffix.scope]
    split_ifs <;> rfl

theorem Tree.groupNames_scope (t : Tree) (s : Scope) :
    (t.scope s).groupNames = s.groupNames ++ t.names := by
  induction t generalizing s with
  | leaf l => exact (List.append_nil _).symm
  | group name body ih =>
    rw [scope, ih, names]
    exact List.append_assoc s.groupNames [name] body.names
  | plain body ih => exact ih s
  | look behind negative body ih => exact ih s
  | void => exact (List.append_nil _).symm
  | nil => exact (List.append_nil _).symm
  | cons term suffix rest ihTerm ihRest =>
    rw [scope, ihRest, Suffix.groupNames_scope, ihTerm, names, List.append_assoc]
  | alt left right ihLeft ihRight => rw [scope, ihRight, ihLeft, names, List.append_assoc]

theorem Tree.length_names (t : Tree) : t.names.length = t.groups := by
  induction t with
  | group name body ih => rw [names, List.length_cons, ih, groups]
  | plain body ih => exact ih
  | look behind negative body ih => exact ih
  | cons term suffix rest ihTerm ihRest => rw [names, List.length_append, ihTerm, ihRest, groups]
  | alt left right ihLeft ihRight => rw [names, List.length_append, ihLeft, ihRight, groups]
  | _ => rfl

end RegExp

end ArkRuntime
