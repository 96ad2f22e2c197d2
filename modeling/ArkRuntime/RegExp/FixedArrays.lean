import ArkRuntime.RegExp.Reading
import Mathlib.Data.List.TakeWhile

/-!
# The arrays of the parser

`ParseGroupSpecifier` collects a name in `char buffer[CACHE_SIZE]`, one `char` for a character, and
`ParseError` copies its message to `char errorMsg_[TMP_BUF_SIZE]`. Both have 128 elements and neither
function looks at this. A `CString` is UTF-8 for those that read it, such as `NewFromStdString`, so the
name of a group is right when it has the bytes of the pattern.
-/

namespace ArkRuntime

namespace RegExp

/-- The texts that are passed to `ParseError`, with those of `DoParserStackOverflowCheck`. -/
def errorTexts : List String :=
  ["extraneous characters at the end", "nothing to repeat", "syntax error", "GroupName Syntax error.",
    "Duplicate GroupName error.", "? Syntax error.", "capture syntax error", "Invalid repetition count",
    "unexpected end", "invalid backreference count", "expecting group name.", "group name not defined",
    "Invalid control letter", "Invalid class escape", "Invalid unicode escape", "invalid class range",
    "invalid regular expression.", "Advance stack overflow!"]

/-- What `ParseError` writes into `errorMsg_`: the message and its zero, each with its index. -/
def errorWrites (errorMessage : String) : List (Char × Nat) :=
  (errorMessage.toList.takeWhile (· ≠ '\x00') ++ ['\x00']).zipIdx

namespace Pattern

variable (p : Pattern)

/-- The bytes from `i` to `j`. -/
def between (i j : Nat) : List UInt8 := (p.source.drop i).take (j - i)

def closesAt (i : Nat) : Bool := p.source[i]?.map UInt8.toNat == some '>'.toNat

/-- The character that a round of the loop of `ParseGroupSpecifier` has at `i`, the index behind it and
    the cursor. Elsewhere the loop ends. -/
def specifierCharacter (fuel₀ : Nat) (cur : Cursor) (i : Nat) : Option (Nat × Nat × Cursor) :=
  match p.source[i]? with
  | none => none
  | some b =>
      if b.toNat = '\\'.toNat then
        if p.byteAt (i + 1) = some 'u'.toNat then
          match p.parseUnicodeEscape fuel₀ cur with
          | .ok (some c, cur') => some (c, i + 1, cur')
          | _ => none
        else none
      else if b.toNat = '>'.toNat then none
      else if 128 < b.toNat then
        match p.unicodeFromUtf8 i cur with
        | .ok (some (c, j), cur') => some (c, j, cur')
        | _ => none
      else some (b.toNat, i + 1, cur)

/-- The test of a character, which is another one where `q == buffer`. -/
def isNamePart (atStart : Bool) (c : Nat) : Bool := if atStart then p.isIdentFirst c else p.icu.isIDPart c

/-- What `*q++ = c` has stored from `buffer[0]` on when the loop ends, and the index of the `>` if it ends
    there. -/
def specifierStores (fuel₀ : Nat) : Nat → Cursor → Nat → List UInt8 → List UInt8 × Option Nat
  | 0, _, _, stored => (stored, none)
  | fuel + 1, cur, i, stored =>
      match p.specifierCharacter fuel₀ cur i with
      | some (c, j, cur') =>
          if p.isNamePart stored.isEmpty c then specifierStores fuel₀ fuel cur' j (stored ++ [UInt8.ofNat c])
          else (stored, none)
      | none => (stored, if p.closesAt i then some i else none)

/-- Characters of a name, each with its index, that stand one behind the other from one index to the
    next. -/
inductive NameRun (p : Pattern) (fuel₀ : Nat) : Bool → Cursor → Nat → List (Nat × Nat) → Nat → Prop
  | nil {atStart : Bool} {cur : Cursor} {i : Nat} : NameRun p fuel₀ atStart cur i [] i
  | cons {atStart : Bool} {cur cur' : Cursor} {i j k c : Nat} {cs : List (Nat × Nat)} :
      p.specifierCharacter fuel₀ cur i = some (c, j, cur') → p.isNamePart atStart c = true →
      NameRun p fuel₀ false cur' j cs k → NameRun p fuel₀ atStart cur i ((i, c) :: cs) k

/-- A character of one byte. An escape is one only if its value ends in the byte of the backslash. -/
def Plain (i c : Nat) : Prop :=
  ∃ b, p.source[i]? = some b ∧ b ≠ 0 ∧ b.toNat ≤ 128 ∧ (b.toNat = '\\'.toNat → UInt8.ofNat c = b)

end Pattern

/-- A call that writes into one of the arrays. -/
inductive ArrayCall where
  | groupSpecifier (fuel₀ : Nat) (cur : Cursor) (i : Nat)
  | error (text : {text // text ∈ errorTexts})
  | propertyError

namespace ArrayCall

/-- The call writes inside of its array, and a group specifier that ends at a `>` returns what stands
    before it. -/
def Meets (p : Pattern) : ArrayCall → Prop
  | groupSpecifier fuel₀ cur i => ∀ fuel stored closed,
      p.specifierStores fuel₀ fuel cur i [] = (stored, closed) →
        (∀ w ∈ stored.zipIdx, w.2 < 128) ∧
          ∀ j, closed = some j → ∃ cur', p.groupSpecifier fuel₀ fuel i [] cur =
            .ok (some (p.between i j, j + 1), cur')
  | error text => ∀ w ∈ errorWrites text, w.2 < 128
  | propertyError => ∀ w ∈ errorWrites p.propertyMessage, w.2 < 128

/-- The name is short, and if it is closed it is shorter and plain. A property that is not known stands in
    a short pattern. -/
def Short (p : Pattern) : ArrayCall → Prop
  | groupSpecifier fuel₀ cur i => ∀ cs j, p.NameRun fuel₀ true cur i cs j →
      cs.length ≤ 128 ∧ (p.closesAt j = true → cs.length < 128 ∧ ∀ x ∈ cs, p.Plain x.1 x.2)
  | error _ => True
  | propertyError => (p.source.takeWhile (· ≠ 0)).length ≤ 99

end ArrayCall

theorem zipIdx_inside {α : Type} {l : List α} {n : Nat} : (∀ w ∈ l.zipIdx, w.2 < n) ↔ l.length ≤ n := by
  constructor
  · intro inside
    by_contra long
    have last : (l[n], n) ∈ l.zipIdx := List.mk_mem_zipIdx_iff_getElem?.mpr (List.getElem?_eq_getElem (by omega))
    exact absurd (inside _ last) (Nat.lt_irrefl n)
  · rintro bound ⟨a, i⟩ mem
    have := List.snd_lt_of_mem_zipIdx mem
    omega

namespace Pattern

variable {p : Pattern} {fuel₀ fuel i j c : Nat} {cur cur' : Cursor} {name stored : List UInt8}

/-! ## A round -/

theorem fromUtf8_end {l c' : Nat} (ran : Ran (p.fromUtf8 l c i) cur (some (c', j)) cur') : j = i + l := by
  induction l generalizing c i with
  | zero =>
    obtain ⟨found, -⟩ := ran_pure.mp ran
    cases found
    rfl
  | succ l ih =>
    simp only [fromUtf8, ran_bind, ran_readAt, ran_ite, ran_pure] at ran
    obtain ⟨b, _, ⟨-, rfl⟩, ⟨-, failed, -⟩ | ⟨-, ran⟩⟩ := ran
    · cases failed
    · have := ih ran
      omega

variable {k : Nat} {b : UInt8} {atStart : Bool} {cs : List (Nat × Nat)}

theorem unicodeFromUtf8_end (byte : p.source[i]? = some b) (large : 128 < b.toNat)
    (ran : Ran (p.unicodeFromUtf8 i) cur (some (c, j)) cur') : i + 2 ≤ j := by
  have inside : i ≠ p.source.length := by
    have := (List.getElem?_eq_some_iff.mp byte).1
    omega
  obtain ⟨_, _, read, ran⟩ := ran_bind.mp ran
  obtain ⟨is, rfl⟩ := ran_readAt.mp read
  simp only [byteAt, inside, if_false, byte, Option.map_some, Option.some.injEq] at is
  subst is
  simp only [ran_ite] at ran
  rcases ran with ⟨small, -⟩ | ⟨-, ⟨-, ran⟩ | ⟨-, ⟨-, ran⟩ | ⟨-, ⟨-, ran⟩ | ⟨-, ⟨-, ran⟩ | ⟨-, ⟨-, ran⟩ | ⟨-, ran⟩⟩⟩⟩⟩⟩
  · omega
  all_goals
    first
    | cases (ran_pure.mp ran).1
    | obtain ⟨found, _, trailed, ran⟩ := ran_bind.mp ran
      rcases found with _ | ⟨c', j'⟩
      · cases (ran_pure.mp ran).1
      · have returned := (ran_pure.mp ran).1
        split_ifs at returned
        cases returned
        have := fromUtf8_end trailed
        omega

/-- A round takes one byte, which is the character unless it is the backslash, or more than one. -/
theorem specifierCharacter_spec (is : p.specifierCharacter fuel₀ cur i = some (c, j, cur')) :
    ∃ b, p.source[i]? = some b ∧ ((b.toNat ≤ 128 ∧ j = i + 1 ∧ (b.toNat ≠ '\\'.toNat → c = b.toNat)) ∨
      (128 < b.toNat ∧ i + 2 ≤ j)) := by
  unfold specifierCharacter at is
  split at is
  · cases is
  · rename_i b byte
    refine ⟨b, byte, ?_⟩
    split_ifs at is with escape letter closed large
    · left
      split at is
      · cases is
        exact ⟨by rw [escape]; decide, rfl, fun other => absurd escape other⟩
      · cases is
    · right
      split at is
      · rename_i decoded
        cases is
        exact ⟨large, unicodeFromUtf8_end byte large decoded⟩
      · cases is
    · cases is
      exact .inl ⟨by omega, rfl, fun _ => rfl⟩

theorem closesAt_lt (closed : p.closesAt i = true) : i < p.source.length := by
  by_contra out
  simp [closesAt, List.getElem?_eq_none (Nat.le_of_not_lt out)] at closed

theorem specifierCharacter_of_closesAt (closed : p.closesAt i = true) : p.specifierCharacter fuel₀ cur i = none := by
  unfold closesAt at closed
  unfold specifierCharacter
  cases byte : p.source[i]? with
  | none => rfl
  | some b =>
    have is : b.toNat = '>'.toNat := by simpa [byte] using closed
    simp only [is]
    rfl

theorem groupByte (byte : p.source[i]? = some b) :
    (if i < p.source.length then (p.source.getD i 0).toNat else keyEof) = b.toNat := by
  obtain ⟨inside, rfl⟩ := List.getElem?_eq_some_iff.mp byte
  simp [inside]

theorem ran_bind_of {α β : Type} {m : Lex α} {f : α → Lex β} {a : α} {b : β} {cur'' : Cursor}
    (first : Ran m cur a cur') : Ran (m >>= f) cur b cur'' ↔ Ran (f a) cur' b cur'' := by
  unfold Ran
  rw [first.bind_eq]

/-- `ParseGroupSpecifier` goes on behind a character of the name while its buffer has room. -/
theorem ran_groupSpecifier_character {r : Option (List UInt8 × Nat)} {cur'' : Cursor}
    (is : p.specifierCharacter fuel₀ cur i = some (c, j, cur')) (part : p.isNamePart name.isEmpty c = true) :
    Ran (p.groupSpecifier fuel₀ (fuel + 1) i name) cur r cur'' ↔
      name.length < 128 ∧ Ran (p.groupSpecifier fuel₀ fuel j (name ++ [UInt8.ofNat c])) cur' r cur'' := by
  have stores : Ran (if (if name.isEmpty then p.isIdentFirst c else p.icu.isIDPart c) = true then
        if 128 ≤ name.length then outside else p.groupSpecifier fuel₀ fuel j (name ++ [UInt8.ofNat c])
        else pure none) cur' r cur'' ↔
      name.length < 128 ∧ Ran (p.groupSpecifier fuel₀ fuel j (name ++ [UInt8.ofNat c])) cur' r cur'' := by
    rw [if_pos (by exact part)]
    simp [ran_ite, ran_outside]
  unfold specifierCharacter at is
  split at is
  · cases is
  · rename_i b byte
    have small : b.toNat ≠ keyEof := by
      have := b.toNat_lt
      unfold keyEof
      omega
    simp only [groupSpecifier, groupByte byte]
    split_ifs at is with escape letter closed large
    · split at is
      · rename_i read
        cases is
        rw [if_pos escape, ran_bind_of (ran_readAt.mpr ⟨letter, rfl⟩), if_pos rfl, ran_bind_of read]
        exact stores
      · cases is
    · split at is
      · rename_i read
        cases is
        rw [if_neg escape, if_neg closed, if_pos ⟨large, small⟩, ran_bind_of read]
        exact stores
      · cases is
    · cases is
      rw [if_neg escape, if_neg closed, if_neg fun both => large both.1, if_pos small]
      exact stores

theorem ran_groupSpecifier_closed {r : Option (List UInt8 × Nat)} (closed : p.closesAt i = true) :
    Ran (p.groupSpecifier fuel₀ (fuel + 1) i name) cur r cur' ↔
      name.length < 128 ∧ r = some (name.takeWhile (· ≠ 0), i + 1) ∧ cur = cur' := by
  unfold closesAt at closed
  cases byte : p.source[i]? with
  | none => simp [byte] at closed
  | some b =>
    have is : b.toNat = '>'.toNat := by simpa [byte] using closed
    simp only [groupSpecifier, groupByte byte]
    rw [if_neg (by rw [is]; decide), if_pos is]
    simp [ran_ite, ran_outside, ran_pure]

/-! ## The loop -/

/-- The loop has stored the characters of a run, and the call returns what it has stored if this ends at a
    `>` and leaves room for a zero. -/
theorem specifierStores_run {closed : Option Nat}
    (is : p.specifierStores fuel₀ fuel cur i name = (stored, closed)) :
    ∃ cs k, p.NameRun fuel₀ name.isEmpty cur i cs k ∧ stored = name ++ cs.map (fun x => UInt8.ofNat x.2) ∧
      ∀ j, closed = some j → j = k ∧ p.closesAt j = true ∧ (stored.length ≤ 128 → ∀ r,
        (∃ cur', Ran (p.groupSpecifier fuel₀ fuel i name) cur r cur') ↔
          stored.length < 128 ∧ r = some (stored.takeWhile (· ≠ 0), j + 1)) := by
  induction fuel generalizing cur i name with
  | zero =>
    cases is
    exact ⟨[], i, .nil, by simp, nofun⟩
  | succ fuel ih =>
    rw [specifierStores] at is
    split at is
    · rename_i c j cur' character
      split_ifs at is with part
      · obtain ⟨cs, k, run, rfl, ends⟩ := ih is
        refine ⟨(i, c) :: cs, k, .cons character part ?_, by simp, fun j' found => ?_⟩
        · rwa [show (name ++ [UInt8.ofNat c]).isEmpty = false by simp] at run
        · obtain ⟨rfl, ended, returns⟩ := ends j' found
          refine ⟨rfl, ended, fun room r => ?_⟩
          rw [← returns room r]
          have few : name.length < 128 := by
            simp only [List.length_append, List.length_singleton] at room
            omega
          simp only [ran_groupSpecifier_character character part, few, true_and]
      · cases is
        exact ⟨[], i, .nil, by simp, nofun⟩
    · cases is
      refine ⟨[], i, .nil, by simp, fun j found => ?_⟩
      split_ifs at found with ended
      cases found
      refine ⟨rfl, ended, fun _ r => ?_⟩
      simp [ran_groupSpecifier_closed ended]

/-- The loop goes through every run. -/
theorem NameRun.rounds (run : p.NameRun fuel₀ atStart cur i cs k) (isStart : name.isEmpty = atStart) :
    ∃ cur', ∀ n, p.specifierStores fuel₀ (n + cs.length) cur i name =
      p.specifierStores fuel₀ n cur' k (name ++ cs.map fun x => UInt8.ofNat x.2) := by
  induction run generalizing name with
  | @nil _ cur _ => exact ⟨cur, fun n => by simp⟩
  | @cons _ cur cur1 i j k c cs character part _ ih =>
    obtain ⟨cur', goes⟩ := @ih (name ++ [UInt8.ofNat c]) (by simp)
    refine ⟨cur', fun n => ?_⟩
    rw [List.length_cons, ← Nat.add_assoc, specifierStores, character]
    simp only [isStart, part, if_true, goes]
    simp

/-! ## The text of a name -/

theorem NameRun.le (run : p.NameRun fuel₀ atStart cur i cs k) : i + cs.length ≤ k := by
  induction run with
  | nil => simp
  | cons character _ _ ih =>
    rw [List.length_cons]
    obtain ⟨b, -, ⟨-, rfl, -⟩ | ⟨-, wide⟩⟩ := specifierCharacter_spec character
    · omega
    · omega

theorem length_between (inside : k ≤ p.source.length) : (p.between i k).length = k - i := by
  simp only [between, List.length_take, List.length_drop]
  omega

theorem between_cons (byte : p.source[i]? = some b) (before : i < k) :
    p.between i k = b :: p.between (i + 1) k := by
  obtain ⟨inside, rfl⟩ := List.getElem?_eq_some_iff.mp byte
  rw [between, between, List.drop_eq_getElem_cons inside, show k - i = k - (i + 1) + 1 by omega,
    List.take_succ_cons]

/-- What is stored of a run is its text if and only if its characters are plain. -/
theorem NameRun.text (run : p.NameRun fuel₀ atStart cur i cs k) (inside : k ≤ p.source.length) :
    (cs.map fun x => UInt8.ofNat x.2).takeWhile (· ≠ 0) = p.between i k ↔
      ∀ x ∈ cs, p.Plain x.1 x.2 := by
  induction run with
  | nil => simp [between]
  | @cons _ cur cur1 i j k c cs character part rest ih =>
    obtain ⟨b, byte, kind⟩ := specifierCharacter_spec character
    have le := rest.le
    rw [between_cons byte (by omega), List.forall_mem_cons]
    rcases kind with ⟨small, rfl, same⟩ | ⟨large, wide⟩
    · have plain : p.Plain i c ↔ UInt8.ofNat c ≠ 0 ∧ UInt8.ofNat c = b := by
        constructor
        · rintro ⟨b', byte', nonzero, -, backslash⟩
          cases byte.symm.trans byte'
          have kept : UInt8.ofNat c = b := by
            by_cases escape : b.toNat = '\\'.toNat
            · exact backslash escape
            · rw [same escape, UInt8.ofNat_toNat]
          exact ⟨kept ▸ nonzero, kept⟩
        · rintro ⟨nonzero, rfl⟩
          exact ⟨_, byte, nonzero, small, fun _ => rfl⟩
      rw [plain, ← ih inside, List.map_cons]
      by_cases zero : UInt8.ofNat c = 0
      · simp [zero]
      · rw [List.takeWhile_cons_of_pos (by simpa using zero), List.cons.injEq]
        exact and_congr_left fun _ => ⟨fun kept => ⟨zero, kept⟩, And.right⟩
    · constructor
      · intro same
        have short := congrArg List.length same
        have le' := (List.takeWhile_sublist (· ≠ 0) (l := (((i, c) :: cs).map fun x => UInt8.ofNat x.2))).length_le
        rw [List.length_cons, length_between inside] at short
        simp only [List.length_map, List.length_cons] at le'
        omega
      · rintro ⟨⟨b', byte', -, small, -⟩, -⟩
        cases byte.symm.trans byte'
        omega

end Pattern

/-! ## The calls -/

theorem groupSpecifier_meets_iff {p : Pattern} {fuel₀ i : Nat} {cur : Cursor} :
    (ArrayCall.groupSpecifier fuel₀ cur i).Meets p ↔ (ArrayCall.groupSpecifier fuel₀ cur i).Short p := by
  constructor
  · intro meets cs k run
    obtain ⟨cur', goes⟩ := run.rounds (show ([] : List UInt8).isEmpty = true from rfl)
    have room : cs.length ≤ 128 := by
      simpa using zipIdx_inside.mp (meets _ _ _ (goes 0)).1
    refine ⟨room, fun closed => ?_⟩
    have ended : p.specifierStores fuel₀ (1 + cs.length) cur i [] =
        ([] ++ cs.map fun x => UInt8.ofNat x.2, some k) := by
      rw [goes 1, Pattern.specifierStores, Pattern.specifierCharacter_of_closesAt closed, if_pos closed]
    obtain ⟨cur'', returned⟩ := (meets _ _ _ ended).2 k rfl
    obtain ⟨_, _, -, -, ends⟩ := Pattern.specifierStores_run ended
    obtain ⟨-, -, returns⟩ := ends k rfl
    obtain ⟨few, name⟩ := (returns (by simpa using room) _).mp ⟨cur'', returned⟩
    have same := congrArg Prod.fst (Option.some.inj name)
    exact ⟨by simpa using few, (run.text (Nat.le_of_lt (Pattern.closesAt_lt closed))).mp same.symm⟩
  · intro short fuel stored closed is
    obtain ⟨cs, k, run, rfl, ends⟩ := Pattern.specifierStores_run is
    obtain ⟨room, plain⟩ := short cs k run
    refine ⟨zipIdx_inside.mpr (by simpa using room), fun j found => ?_⟩
    obtain ⟨rfl, ended, returns⟩ := ends j found
    obtain ⟨few, all⟩ := plain ended
    refine (returns (by simpa using room) _).mpr ⟨by simpa using few, ?_⟩
    rw [List.nil_append, (run.text (Nat.le_of_lt (Pattern.closesAt_lt ended))).mpr all]

theorem errorWrites_inside {errorMessage : String} :
    (∀ w ∈ errorWrites errorMessage, w.2 < 128) ↔ (errorMessage.toList.takeWhile (· ≠ '\x00')).length < 128 := by
  rw [errorWrites, zipIdx_inside, List.length_append]
  exact Nat.succ_le_iff

theorem errorTexts_inside {text : String} (inTable : text ∈ errorTexts) : ∀ w ∈ errorWrites text, w.2 < 128 := by
  have all : ∀ text ∈ errorTexts, (text.toList.takeWhile (· ≠ '\x00')).length < 128 := by decide
  exact errorWrites_inside.mpr (all text inTable)

theorem expression_nonzero {p : Pattern} : ∀ a ∈ p.expression.toList, a ≠ '\x00' := by
  rw [Pattern.expression, String.toList_ofList]
  intro a mem
  obtain ⟨b, inside, rfl⟩ := List.mem_map.mp mem
  have nonzero : b ≠ 0 := by simpa using List.mem_takeWhile_imp inside
  intro same
  have zero := congrArg Char.toNat same
  rw [Char.ofNat, dif_pos (.inl (Nat.lt_trans b.toNat_lt (by decide)))] at zero
  exact nonzero (UInt8.toNat_inj.mp zero)

theorem propertyMessage_length (p : Pattern) :
    (p.propertyMessage.toList.takeWhile (· ≠ '\x00')).length = 28 + (p.source.takeWhile (· ≠ 0)).length := by
  have parts : p.propertyMessage.toList = "Invalid regular expression :".toList ++ p.expression.toList :=
    String.toList_append
  have literal : "Invalid regular expression :".toList.length = 28 ∧
      "Invalid regular expression :".toList.all (· ≠ '\x00') = true := ⟨rfl, rfl⟩
  rw [parts, List.takeWhile_append_of_pos (List.all_eq_true.mp literal.2),
    List.takeWhile_eq_self_iff.mpr fun a mem => decide_eq_true (expression_nonzero a mem), List.length_append,
    literal.1, Pattern.expression, String.toList_ofList, List.length_map]

/-- The parser writes inside of its arrays, and a name is the text before its `>`, if and only if names and
    patterns are short and the characters of a closed name are plain. -/
theorem arrayCall_meets_iff (p : Pattern) (call : ArrayCall) : call.Meets p ↔ call.Short p := by
  cases call with
  | groupSpecifier fuel₀ cur i => exact groupSpecifier_meets_iff
  | error text => exact ⟨fun _ => trivial, fun _ => errorTexts_inside text.2⟩
  | propertyError =>
    rw [ArrayCall.Meets, errorWrites_inside, propertyMessage_length, ArrayCall.Short]
    omega

/-- A group whose name has 129 letters. -/
def longName : Pattern :=
  ⟨asciiIcu, [0x28, 0x3f, 0x3c] ++ List.replicate 129 0x61 ++ [0x3e, 0x29], 0⟩

theorem groupSpecifier_overflow : ¬ ∀ (p : Pattern) (call : ArrayCall), call.Meets p := by
  intro all
  have inside := (all longName (.groupSpecifier 0 ⟨3, 0x61⟩ 3) 129 _ _ (Prod.eta _).symm).1
  exact absurd (zipIdx_inside.mp inside) (by decide +kernel)

end RegExp

end ArkRuntime
