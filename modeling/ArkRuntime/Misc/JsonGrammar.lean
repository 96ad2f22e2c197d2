import Mathlib.Data.List.Basic

/-!
# The JSON grammar

The grammar of ECMA-404 over code units, with the value of every text. It has the set of number tokens as a
parameter, so that a reader that takes other numbers is described by the same rules; `IsNumber` is the one of
the standard. Characters are written as code units: `"` is `0x22`, `,` is `0x2C`, `:` is `0x3A`, `[` and `]` are
`0x5B` and `0x5D`, `\` is `0x5C`, and the braces are `0x7B` and `0x7D`.
-/

namespace ArkRuntime

namespace Json

/-! ## Numbers -/

def isSpace (c : Nat) : Bool := c = 0x20 || c = 0x0D || c = 0x0A || c = 0x09

def isDigit (c : Nat) : Bool := 0x30 ≤ c && c ≤ 0x39

def IsSpaces (s : List Nat) : Prop := ∀ c ∈ s, isSpace c = true

def IsDigits (s : List Nat) : Prop := ∀ c ∈ s, isDigit c = true

/-- `-` or nothing. -/
def IsMinus (s : List Nat) : Prop := s = [] ∨ s = [0x2D]

/-- `0`, or digits that do not start with `0`. -/
def IsInt (s : List Nat) : Prop :=
  s = [0x30] ∨ ∃ d ds, s = d :: ds ∧ 0x31 ≤ d ∧ d ≤ 0x39 ∧ IsDigits ds

/-- `.` and at least one digit. -/
def IsFrac (s : List Nat) : Prop := ∃ d ds, s = 0x2E :: d :: ds ∧ isDigit d = true ∧ IsDigits ds

/-- `e` or `E`, a sign or nothing, and at least one digit. -/
def IsExp (s : List Nat) : Prop :=
  ∃ e sign d ds, s = e :: (sign ++ d :: ds) ∧ (e = 0x65 ∨ e = 0x45) ∧
    (sign = [] ∨ sign = [0x2B] ∨ sign = [0x2D]) ∧ isDigit d = true ∧ IsDigits ds

def IsNumber (s : List Nat) : Prop :=
  ∃ minus int frac exp, s = minus ++ int ++ frac ++ exp ∧ IsMinus minus ∧ IsInt int ∧
    (frac = [] ∨ IsFrac frac) ∧ (exp = [] ∨ IsExp exp)

/-- What a number token stands for: an integer of at most nine digits, or the double of the token. -/
inductive JSNumber where
  | int (i : Int)
  | text (s : List Nat)
deriving DecidableEq, Repr

def digitsValue (ds : List Nat) : Nat := ds.foldl (fun n d => 10 * n + (d - 0x30)) 0

/-- Digits of a short integer. -/
def isShortInteger (ds : List Nat) : Bool :=
  match ds with
  | [] => false
  | d :: ds' => 0x31 ≤ d && d ≤ 0x39 && ds'.all isDigit && ds.length ≤ 9

def numberOf (s : List Nat) : JSNumber :=
  match s with
  | 0x2D :: ds => if isShortInteger ds then .int (-(digitsValue ds)) else .text s
  | _ => if isShortInteger s then .int (digitsValue s) else .text s

/-! ## Strings -/

/-- The character behind `\`, for the escapes of one character. -/
def escapeOf : Nat → Option Nat
  | 0x22 => some 0x22
  | 0x5C => some 0x5C
  | 0x2F => some 0x2F
  | 0x62 => some 0x08
  | 0x66 => some 0x0C
  | 0x6E => some 0x0A
  | 0x72 => some 0x0D
  | 0x74 => some 0x09
  | _ => none

def hexDigit (c : Nat) : Option Nat :=
  if 0x30 ≤ c ∧ c ≤ 0x39 then some (c - 0x30)
  else if 0x61 ≤ c ∧ c ≤ 0x66 then some (c - 0x61 + 10)
  else if 0x41 ≤ c ∧ c ≤ 0x46 then some (c - 0x41 + 10)
  else none

/-- The code unit of four hexadecimal digits. -/
def hexUnit (a b c d : Nat) : Option Nat := do
  return (((← hexDigit a) * 16 + (← hexDigit b)) * 16 + (← hexDigit c)) * 16 + (← hexDigit d)

/-- The text between the quotes, and the string. -/
inductive IsChars : List Nat → List Nat → Prop where
  | nil : IsChars [] []
  | plain {c : Nat} {s r : List Nat} (legal : 0x20 ≤ c) (quote : c ≠ 0x22) (backslash : c ≠ 0x5C)
      (rest : IsChars s r) : IsChars (c :: s) (c :: r)
  | escape {e c : Nat} {s r : List Nat} (escaped : escapeOf e = some c) (rest : IsChars s r) :
      IsChars (0x5C :: e :: s) (c :: r)
  | unicode {a b c d u : Nat} {s r : List Nat} (hex : hexUnit a b c d = some u) (rest : IsChars s r) :
      IsChars (0x5C :: 0x75 :: a :: b :: c :: d :: s) (u :: r)

/-! ## Values -/

inductive Value where
  | null
  | true
  | false
  | number (n : JSNumber)
  | string (s : List Nat)
  | array (elements : List Value)
  | object (properties : List (List Nat × Value))

def trueText : List Nat := [0x74, 0x72, 0x75, 0x65]

def falseText : List Nat := [0x66, 0x61, 0x6C, 0x73, 0x65]

def nullText : List Nat := [0x6E, 0x75, 0x6C, 0x6C]

variable (N : List Nat → Prop)

mutual

inductive IsValue : Value → List Nat → Prop where
  | null : IsValue .null nullText
  | true : IsValue .true trueText
  | false : IsValue .false falseText
  | number {s : List Nat} (token : N s) : IsValue (.number (numberOf s)) s
  | string {s r : List Nat} (chars : IsChars s r) : IsValue (.string r) (0x22 :: s ++ [0x22])
  | emptyArray {w : List Nat} (spaces : IsSpaces w) : IsValue (.array []) (0x5B :: w ++ [0x5D])
  | array {vs : List Value} {s : List Nat} (elements : IsElements vs s) :
      IsValue (.array vs) (0x5B :: s ++ [0x5D])
  | emptyObject {w : List Nat} (spaces : IsSpaces w) : IsValue (.object []) (0x7B :: w ++ [0x7D])
  | object {ps : List (List Nat × Value)} {s : List Nat} (members : IsMembers ps s) :
      IsValue (.object ps) (0x7B :: s ++ [0x7D])

/-- Values with commas between them. -/
inductive IsElements : List Value → List Nat → Prop where
  | one {v : Value} {w s w' : List Nat} (before : IsSpaces w) (value : IsValue v s) (after : IsSpaces w') :
      IsElements [v] (w ++ s ++ w')
  | more {v : Value} {vs : List Value} {w s w' r : List Nat} (before : IsSpaces w) (value : IsValue v s)
      (after : IsSpaces w') (rest : IsElements vs r) : IsElements (v :: vs) (w ++ s ++ w' ++ 0x2C :: r)

/-- Names and values with commas between them. -/
inductive IsMembers : List (List Nat × Value) → List Nat → Prop where
  | one {k : List Nat} {v : Value} {w n w₁ w₂ s w₃ : List Nat} (before : IsSpaces w) (name : IsChars n k)
      (colon : IsSpaces w₁) (behind : IsSpaces w₂) (value : IsValue v s) (after : IsSpaces w₃) :
      IsMembers [(k, v)] (w ++ 0x22 :: n ++ 0x22 :: w₁ ++ 0x3A :: w₂ ++ s ++ w₃)
  | more {k : List Nat} {v : Value} {ps : List (List Nat × Value)} {w n w₁ w₂ s w₃ r : List Nat}
      (before : IsSpaces w) (name : IsChars n k) (colon : IsSpaces w₁) (behind : IsSpaces w₂) (value : IsValue v s)
      (after : IsSpaces w₃) (rest : IsMembers ps r) :
      IsMembers ((k, v) :: ps) (w ++ 0x22 :: n ++ 0x22 :: w₁ ++ 0x3A :: w₂ ++ s ++ w₃ ++ 0x2C :: r)

end

/-- A value with spaces around it. -/
def IsText (v : Value) (text : List Nat) : Prop :=
  ∃ w s w', text = w ++ s ++ w' ∧ IsSpaces w ∧ IsValue N v s ∧ IsSpaces w'

end Json

end ArkRuntime
