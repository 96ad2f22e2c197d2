import ArkRuntime.RegExp.Reading
import Mathlib.Data.List.TakeWhile

/-!
# `ParserIntervalQuantifier`

Behind a `{` the parser wants digits, and then `}`, `,}`, or a comma, digits and `}`. That there are digits
before the first of these signs it does not ask for: `{}`, `{,}` and `{,5}` are intervals from zero on. Where
it finds none, both callers go back to the brace.
-/

namespace ArkRuntime

namespace RegExp

/-! ## Intervals in a text -/

/-- Digits, one or more. -/
def IsNumeral (digits : List Nat) : Prop := digits ≠ [] ∧ ∀ d ∈ digits, isDigit d = true

/-- The number of some digits behind a number. -/
def numeralFrom (value : Nat) (digits : List Nat) : Nat := digits.foldl (fun v d => v * 10 + (d - '0'.toNat)) value

/-- The number of some digits, at most `INT32_MAX`. -/
def saturated (digits : List Nat) : Nat := min (numeralFrom 0 digits) int32Max

/-- The text of an interval behind its `{`, with its bounds. `First` says what the first number can be. -/
inductive IntervalText (First : List Nat → Prop) : List Nat → Nat → Nat → Prop
  | exactly {ds : List Nat} : First ds →
      IntervalText First (ds ++ ['}'.toNat]) (saturated ds) (saturated ds)
  | atLeast {ds : List Nat} : First ds →
      IntervalText First (ds ++ [','.toNat, '}'.toNat]) (saturated ds) int32Max
  | between {ds es : List Nat} : First ds → IsNumeral es →
      IntervalText First (ds ++ ','.toNat :: es ++ ['}'.toNat]) (saturated ds) (saturated es)

/-- The text begins with an interval. -/
def BeginsInterval (First : List Nat → Prop) (text : List Nat) : Prop :=
  ∃ inner rest min max, text = inner ++ rest ∧ IntervalText First inner min max

def Digits (ds : List Nat) : Prop := ∀ d ∈ ds, isDigit d = true

theorem IntervalText.mono {First First' : List Nat → Prop} (weaker : ∀ ds, First ds → First' ds)
    {inner : List Nat} {min max : Nat} (interval : IntervalText First inner min max) :
    IntervalText First' inner min max := by
  cases interval with
  | exactly first => exact .exactly (weaker _ first)
  | atLeast first => exact .atLeast (weaker _ first)
  | between first second => exact .between (weaker _ first) second

theorem le_numeralFrom (value : Nat) (ds : List Nat) : value ≤ numeralFrom value ds := by
  induction ds generalizing value with
  | nil => exact Nat.le_refl _
  | cons d ds ih => exact Nat.le_trans (by omega) (ih (value * 10 + (d - '0'.toNat)))

/-- The text does not begin with a digit. -/
def EndsDigits (rest : List Nat) : Prop := isDigit (rest.headD keyEof) = false

theorem endsDigits_cons {c : Nat} {rest : List Nat} (other : isDigit c = false) : EndsDigits (c :: rest) := other

theorem BeginsInterval.first {First : List Nat → Prop} {tail : List Nat}
    (begins : BeginsInterval First tail) :
    ∃ ds rest, tail = ds ++ rest ∧ First ds ∧ EndsDigits rest := by
  obtain ⟨inner, rest, min, max, rfl, interval⟩ := begins
  cases interval with
  | @exactly ds first => exact ⟨ds, '}'.toNat :: rest, by simp, first, endsDigits_cons (by decide)⟩
  | @atLeast ds first => exact ⟨ds, ','.toNat :: '}'.toNat :: rest, by simp, first, endsDigits_cons (by decide)⟩
  | @between ds es first second =>
    exact ⟨ds, ','.toNat :: (es ++ '}'.toNat :: rest), by simp, first, endsDigits_cons (by decide)⟩

/-- The bytes of a pattern as numbers. -/
def Pattern.text (p : Pattern) : List Nat := p.source.map UInt8.toNat

namespace Pattern

variable {p : Pattern} {k : Nat} {fuel : Nat}

theorem ran_backTo {cur cur' : Cursor} {start : Nat} {u : Unit} :
    Ran (p.backTo start) cur u cur' ↔ cur' = p.next { cur with pc := start } := by
  simp only [backTo, ran_bind, ran_setPc, ran_advance]
  constructor
  · rintro ⟨_, _, rfl, rfl⟩
    rfl
  · rintro rfl
    exact ⟨(), _, rfl, rfl⟩

theorem text_get {i j : Nat} : (p.text.drop i)[j]? = p.source[i + j]?.map UInt8.toNat := by
  rw [List.getElem?_drop, text, List.getElem?_map]

/-! ## Cursors by their places -/

/-- The cursor on the character `k`. -/
def cursorAt (p : Pattern) (k : Nat) : Cursor := p.next ⟨k, keyEof⟩

theorem drop_succ {c : Nat} {tail : List Nat} (is : p.text.drop k = c :: tail) : p.text.drop (k + 1) = tail := by
  rw [← List.drop_drop, is]
  rfl

theorem cursorAt_cons {c : Nat} {tail : List Nat} (is : p.text.drop k = c :: tail) :
    p.cursorAt k = ⟨k + 1, c⟩ := by
  have read := congrArg (fun text : List Nat => text[0]?) is
  simp only [text_get, Nat.add_zero, List.getElem?_cons_zero] at read
  obtain ⟨b, byte, value⟩ := Option.map_eq_some_iff.mp read
  rw [cursorAt, next, byte]
  simp only [value]

theorem cursorAt_nil (is : p.text.drop k = []) : p.cursorAt k = ⟨k, keyEof⟩ := by
  have outside : p.source.length ≤ k := by
    have := List.drop_eq_nil_iff.mp is
    rwa [text, List.length_map] at this
  rw [cursorAt, next, List.getElem?_eq_none outside]

theorem next_cursorAt {c : Nat} {tail : List Nat} (is : p.text.drop k = c :: tail) :
    p.next (p.cursorAt k) = p.cursorAt (k + 1) := by
  rw [cursorAt_cons is, cursorAt]
  unfold next
  cases byte : p.source[k + 1]? <;> rfl

theorem c0_cursorAt : (p.cursorAt k).c0 = (p.text.drop k).headD keyEof := by
  cases is : p.text.drop k with
  | nil => rw [cursorAt_nil is, List.headD_nil]
  | cons c tail => rw [cursorAt_cons is, List.headD_cons]

/-! ## Digits -/

theorem decimalDigits_runs {ds rest : List Nat} (digits : Digits ds) (ends : EndsDigits rest) :
    ∀ {fuel k value : Nat} {overflow : Bool}, p.text.drop k = ds ++ rest → ds.length < fuel →
      (overflow = false → value ≤ int32Max) →
      Ran (p.decimalDigits fuel value overflow) (p.cursorAt k)
        (if overflow then int32Max else min (numeralFrom value ds) int32Max) (p.cursorAt (k + ds.length)) := by
  induction ds with
  | nil =>
    intro fuel k value overflow is enough small
    obtain ⟨fuel, rfl⟩ : ∃ n, fuel = n + 1 := ⟨fuel - 1, by simp at enough; omega⟩
    have last : ¬isDigit (p.cursorAt k).c0 = true := by
      rw [c0_cursorAt, is]
      exact Bool.eq_false_iff.mp ends
    have result : (if overflow then int32Max else min (numeralFrom value []) int32Max) =
        if overflow then int32Max else value := by
      cases overflow with
      | true => rfl
      | false => exact Nat.min_eq_left (small rfl)
    rw [decimalDigits, ran_bind]
    refine ⟨_, _, ran_c0.mpr ⟨rfl, rfl⟩, ?_⟩
    rw [ran_ite]
    exact .inr ⟨last, ran_pure.mpr ⟨result, rfl⟩⟩
  | cons d ds ih =>
    intro fuel k value overflow is enough small
    obtain ⟨fuel, rfl⟩ : ∃ n, fuel = n + 1 := ⟨fuel - 1, by simp at enough; omega⟩
    have enough : ds.length < fuel := Nat.lt_of_succ_lt_succ enough
    have digit : isDigit d = true := digits d List.mem_cons_self
    have others : Digits ds := fun e mem => digits e (List.mem_cons_of_mem _ mem)
    have here := cursorAt_cons is
    have behind : p.next ⟨k + 1, d⟩ = p.cursorAt (k + 1) := by rw [← here, next_cursorAt is]
    have place : k + 1 + ds.length = k + (d :: ds).length := by
      rw [List.length_cons]
      omega
    rw [decimalDigits, ran_bind]
    refine ⟨_, _, ran_c0.mpr ⟨rfl, rfl⟩, ?_⟩
    rw [here, ran_ite]
    refine .inl ⟨digit, ?_⟩
    rw [ran_bind]
    refine ⟨(), _, ran_advance.mpr rfl, ?_⟩
    rw [behind, ← place, ran_ite]
    have step : numeralFrom value (d :: ds) = numeralFrom (value * 10 + (d - '0'.toNat)) ds := rfl
    by_cases full : (overflow || decide (value > (int32Max - (d - '0'.toNat)) / 10)) = true
    · refine .inl ⟨full, ?_⟩
      have run := @ih others fuel (k + 1) value true (drop_succ is) enough nofun
      have result : (if overflow then int32Max else min (numeralFrom value (d :: ds)) int32Max) = int32Max := by
        cases overflow with
        | true => rfl
        | false =>
          have large := le_numeralFrom (value * 10 + (d - '0'.toNat)) ds
          simp only [Bool.false_or, decide_eq_true_eq] at full
          rw [if_neg Bool.false_ne_true, step]
          omega
      rw [result]
      exact run
    · refine .inr ⟨full, ?_⟩
      obtain ⟨none', fits⟩ : overflow = false ∧ value ≤ (int32Max - (d - '0'.toNat)) / 10 := by
        simpa using full
      have small' : value * 10 + (d - '0'.toNat) ≤ int32Max := by
        have nine : d - '0'.toNat ≤ 9 := by
          simp only [isDigit, Bool.and_eq_true, decide_eq_true_eq] at digit
          have : '9'.toNat = '0'.toNat + 9 := rfl
          omega
        have : int32Max = 2147483647 := rfl
        omega
      have run := @ih others fuel (k + 1) (value * 10 + (d - '0'.toNat)) false (drop_succ is) enough
        fun _ => small'
      rw [none', step]
      exact run

theorem parseDecimalDigits_runs {ds rest : List Nat} (digits : Digits ds) (ends : EndsDigits rest)
    (is : p.text.drop k = ds ++ rest) (enough : ds.length < fuel) :
    Ran (p.parseDecimalDigits fuel) (p.cursorAt k) (saturated ds) (p.cursorAt (k + ds.length)) :=
  decimalDigits_runs digits ends is enough fun _ => Nat.zero_le _

/-! ## The interval -/

theorem cons_of_headD {c : Nat} {rest : List Nat} (is : rest.headD keyEof = c) (more : c ≠ keyEof) :
    ∃ tail, rest = c :: tail := by
  cases rest with
  | nil => exact absurd is.symm more
  | cons d tail => exact ⟨tail, congrArg (· :: tail) is⟩

/-- Digits, then something else. -/
theorem exists_digits (text : List Nat) : ∃ ds rest, text = ds ++ rest ∧ Digits ds ∧ EndsDigits rest := by
  refine ⟨text.takeWhile isDigit, text.dropWhile isDigit, (List.takeWhile_append_dropWhile).symm,
    fun d mem => List.mem_takeWhile_imp mem, ?_⟩
  cases is : text.dropWhile isDigit with
  | nil => rfl
  | cons c rest =>
    have := List.head?_dropWhile_not isDigit text
    rw [is] at this
    simpa [EndsDigits] using this

theorem digits_unique {ds ds' rest rest' : List Nat} (same : ds ++ rest = ds' ++ rest') (digits : Digits ds)
    (digits' : Digits ds') (ends : EndsDigits rest) (ends' : EndsDigits rest') : ds = ds' ∧ rest = rest' := by
  induction ds generalizing ds' with
  | nil =>
    cases ds' with
    | nil => exact ⟨rfl, same⟩
    | cons d ds' =>
      have digit := digits' d List.mem_cons_self
      rw [List.nil_append] at same
      rw [same, EndsDigits, List.cons_append, List.headD_cons, digit] at ends
      cases ends
  | cons d ds ih =>
    cases ds' with
    | nil =>
      have digit := digits d List.mem_cons_self
      rw [List.nil_append] at same
      rw [← same, EndsDigits, List.cons_append, List.headD_cons, digit] at ends'
      cases ends'
    | cons d' ds' =>
      obtain ⟨rfl, tails⟩ := List.cons.inj same
      obtain ⟨rfl, rests⟩ := ih tails (fun e mem => digits e (List.mem_cons_of_mem _ mem))
        fun e mem => digits' e (List.mem_cons_of_mem _ mem)
      exact ⟨rfl, rests⟩

/-- What `ParserIntervalQuantifier` does behind the first number. -/
def intervalEnd (p : Pattern) (fuel min : Nat) : Lex (Option (Nat × Nat)) := do
  let c ← c0
  if c = ','.toNat then
    p.advance
    if (← c0) = '}'.toNat then
      p.advance
      return some (min, int32Max)
    else
      let max ← p.parseDecimalDigits fuel
      if (← c0) = '}'.toNat then
        p.advance
        return some (min, max)
      else return none
  else if c = '}'.toNat then
    p.advance
    return some (min, min)
  else
    p.advance
    return none

theorem parserIntervalQuantifier_runs {ds rest : List Nat} {r : Option (Nat × Nat)} {cur : Cursor}
    (brace : p.text.drop k = '{'.toNat :: (ds ++ rest)) (digits : Digits ds) (ends : EndsDigits rest)
    (enough : ds.length < fuel)
    (behind : Ran (p.intervalEnd fuel (saturated ds)) (p.cursorAt (k + 1 + ds.length)) r cur) :
    Ran (p.parserIntervalQuantifier fuel) (p.cursorAt k) r cur := by
  rw [parserIntervalQuantifier, ran_bind]
  refine ⟨(), _, ran_advance.mpr rfl, ?_⟩
  rw [next_cursorAt brace, ran_bind]
  exact ⟨_, _, parseDecimalDigits_runs digits ends (drop_succ brace) enough, behind⟩

theorem intervalEnd_close {tail : List Nat} {min : Nat} (is : p.text.drop k = '}'.toNat :: tail) :
    Ran (p.intervalEnd fuel min) (p.cursorAt k) (some (min, min)) (p.cursorAt (k + 1)) := by
  have here : (p.cursorAt k).c0 = '}'.toNat := by rw [c0_cursorAt, is, List.headD_cons]
  rw [intervalEnd, ran_bind]
  refine ⟨_, _, ran_c0.mpr ⟨rfl, rfl⟩, ?_⟩
  rw [here, if_neg (by decide), if_pos rfl, ran_bind]
  exact ⟨(), _, ran_advance.mpr rfl, ran_pure.mpr ⟨rfl, next_cursorAt is⟩⟩

theorem intervalEnd_open {tail : List Nat} {min : Nat} (is : p.text.drop k = ','.toNat :: '}'.toNat :: tail) :
    Ran (p.intervalEnd fuel min) (p.cursorAt k) (some (min, int32Max)) (p.cursorAt (k + 2)) := by
  have here : (p.cursorAt k).c0 = ','.toNat := by rw [c0_cursorAt, is, List.headD_cons]
  have there : (p.cursorAt (k + 1)).c0 = '}'.toNat := by rw [c0_cursorAt, drop_succ is, List.headD_cons]
  rw [intervalEnd, ran_bind]
  refine ⟨_, _, ran_c0.mpr ⟨rfl, rfl⟩, ?_⟩
  rw [here, if_pos rfl, ran_bind]
  refine ⟨(), _, ran_advance.mpr rfl, ?_⟩
  rw [next_cursorAt is, ran_bind]
  refine ⟨_, _, ran_c0.mpr ⟨rfl, rfl⟩, ?_⟩
  rw [there, if_pos rfl, ran_bind]
  exact ⟨(), _, ran_advance.mpr rfl, ran_pure.mpr ⟨rfl, next_cursorAt (drop_succ is)⟩⟩

/-- Behind the comma there is a second number, or something that ends no interval. -/
theorem intervalEnd_second {es rest : List Nat} {min : Nat} (is : p.text.drop k = ','.toNat :: (es ++ rest))
    (digits : Digits es) (ends : EndsDigits rest) (enough : es.length < fuel)
    (notOpen : (es ++ rest).headD keyEof ≠ '}'.toNat) :
    ∃ cur, Ran (p.intervalEnd fuel min) (p.cursorAt k)
        (if rest.headD keyEof = '}'.toNat then some (min, saturated es) else none) cur ∧
      (rest.headD keyEof = '}'.toNat → cur = p.cursorAt (k + 1 + es.length + 1)) := by
  have here : (p.cursorAt k).c0 = ','.toNat := by rw [c0_cursorAt, is, List.headD_cons]
  have there : (p.cursorAt (k + 1)).c0 ≠ '}'.toNat := by rwa [c0_cursorAt, drop_succ is]
  have read := parseDecimalDigits_runs digits ends (drop_succ is) enough
  have behind : p.text.drop (k + 1 + es.length) = rest := by
    rw [← List.drop_drop, drop_succ is, List.drop_left]
  have last : (p.cursorAt (k + 1 + es.length)).c0 = rest.headD keyEof := by rw [c0_cursorAt, behind]
  have begins (r : Option (Nat × Nat)) (cur : Cursor)
      (ran : Ran (do
        if (← c0) = '}'.toNat then
          p.advance
          return some (min, saturated es)
        else return none : Lex (Option (Nat × Nat))) (p.cursorAt (k + 1 + es.length)) r cur) :
      Ran (p.intervalEnd fuel min) (p.cursorAt k) r cur := by
    rw [intervalEnd, ran_bind]
    refine ⟨_, _, ran_c0.mpr ⟨rfl, rfl⟩, ?_⟩
    rw [here, if_pos rfl, ran_bind]
    refine ⟨(), _, ran_advance.mpr rfl, ?_⟩
    rw [next_cursorAt is, ran_bind]
    refine ⟨_, _, ran_c0.mpr ⟨rfl, rfl⟩, ?_⟩
    rw [if_neg there, ran_bind]
    exact ⟨_, _, read, ran⟩
  by_cases close : rest.headD keyEof = '}'.toNat
  · refine ⟨p.cursorAt (k + 1 + es.length + 1), begins _ _ ?_, fun _ => rfl⟩
    obtain ⟨tail, rfl⟩ := cons_of_headD close (by decide)
    rw [ran_bind]
    refine ⟨_, _, ran_c0.mpr ⟨rfl, rfl⟩, ?_⟩
    rw [last, if_pos close, if_pos close, ran_bind]
    exact ⟨(), _, ran_advance.mpr rfl, ran_pure.mpr ⟨rfl, next_cursorAt behind⟩⟩
  · refine ⟨p.cursorAt (k + 1 + es.length), begins _ _ ?_, fun is => absurd is close⟩
    rw [ran_bind]
    refine ⟨_, _, ran_c0.mpr ⟨rfl, rfl⟩, ?_⟩
    rw [last, if_neg close, if_neg close]
    exact ran_pure.mpr ⟨rfl, rfl⟩

theorem intervalEnd_other {c : Nat} {min : Nat} (is : (p.text.drop k).headD keyEof = c)
    (notComma : c ≠ ','.toNat) (notClose : c ≠ '}'.toNat) :
    Ran (p.intervalEnd fuel min) (p.cursorAt k) none (p.next (p.cursorAt k)) := by
  rw [← is, ← c0_cursorAt] at notComma notClose
  rw [intervalEnd, ran_bind]
  refine ⟨_, _, ran_c0.mpr ⟨rfl, rfl⟩, ?_⟩
  rw [if_neg notComma, if_neg notClose, ran_bind]
  exact ⟨(), _, ran_advance.mpr rfl, ran_pure.mpr ⟨rfl, rfl⟩⟩

theorem length_le_of_drop {tail inner rest : List Nat} (brace : p.text.drop k = '{'.toNat :: tail)
    (parts : tail = inner ++ rest) : inner.length < p.text.length := by
  have := congrArg List.length brace
  rw [parts, List.length_drop, List.length_cons, List.length_append] at this
  omega

/-- An interval is read, also one without a first number. -/
theorem interval_accepted {tail inner rest : List Nat} {min max : Nat}
    (brace : p.text.drop k = '{'.toNat :: tail) (enough : p.text.length < fuel)
    (parts : tail = inner ++ rest) (interval : IntervalText Digits inner min max) :
    Ran (p.parserIntervalQuantifier fuel) (p.cursorAt k) (some (min, max))
      (p.cursorAt (k + 1 + inner.length)) := by
  have short := length_le_of_drop brace parts
  cases interval with
  | @exactly ds digits =>
    rw [parts, List.append_assoc] at brace
    rw [List.length_append] at short ⊢
    have behind : p.text.drop (k + 1 + ds.length) = '}'.toNat :: rest := by
      rw [← List.drop_drop, drop_succ brace, List.drop_left]
      rfl
    exact parserIntervalQuantifier_runs brace digits (endsDigits_cons (by decide)) (by omega)
      (intervalEnd_close behind)
  | @atLeast ds digits =>
    rw [parts, List.append_assoc] at brace
    rw [List.length_append] at short ⊢
    have behind : p.text.drop (k + 1 + ds.length) = ','.toNat :: '}'.toNat :: rest := by
      rw [← List.drop_drop, drop_succ brace, List.drop_left]
      rfl
    exact parserIntervalQuantifier_runs brace digits (endsDigits_cons (by decide)) (by omega)
      (intervalEnd_open behind)
  | @between ds es digits second =>
    obtain ⟨some', digits'⟩ := second
    have parts' : tail = ds ++ (','.toNat :: (es ++ '}'.toNat :: rest)) := by
      rw [parts]
      simp
    rw [parts'] at brace
    simp only [List.length_append, List.length_cons, List.length_nil] at short ⊢
    have behind : p.text.drop (k + 1 + ds.length) = ','.toNat :: (es ++ '}'.toNat :: rest) := by
      rw [← List.drop_drop, drop_succ brace, List.drop_left]
    have notOpen : (es ++ '}'.toNat :: rest).headD keyEof ≠ '}'.toNat := by
      cases es with
      | nil => exact absurd rfl some'
      | cons e es =>
        intro close
        have digit := digits' e List.mem_cons_self
        rw [show e = '}'.toNat from close] at digit
        exact absurd digit (by decide)
    have few : es.length < fuel := by omega
    obtain ⟨cur, ran, at'⟩ := @intervalEnd_second p _ fuel es _ (saturated ds) behind digits'
      (endsDigits_cons (by decide)) few notOpen
    rw [List.headD_cons, if_pos rfl] at ran
    have place : k + 1 + ds.length + 1 + es.length + 1 = k + 1 + (ds.length + (es.length + 1) + (0 + 1)) := by
      omega
    rw [← place, ← at' rfl]
    exact parserIntervalQuantifier_runs brace digits (endsDigits_cons (by decide)) (by omega) ran

theorem interval_refused {tail : List Nat} (brace : p.text.drop k = '{'.toNat :: tail)
    (enough : p.text.length < fuel) (absent : ¬BeginsInterval Digits tail) :
    ∃ cur, Ran (p.parserIntervalQuantifier fuel) (p.cursorAt k) none cur := by
  obtain ⟨ds, rest, rfl, digits, ends⟩ := exists_digits tail
  have short := length_le_of_drop brace rfl
  have behind : p.text.drop (k + 1 + ds.length) = rest := by
    rw [← List.drop_drop, drop_succ brace, List.drop_left]
  have begins {cur : Cursor} (ran : Ran (p.intervalEnd fuel (saturated ds)) (p.cursorAt (k + 1 + ds.length)) none cur) :
      Ran (p.parserIntervalQuantifier fuel) (p.cursorAt k) none cur :=
    parserIntervalQuantifier_runs brace digits ends (by omega) ran
  by_cases comma : rest.headD keyEof = ','.toNat
  · obtain ⟨rest, rfl⟩ := cons_of_headD comma (by decide)
    obtain ⟨es, rest, rfl, digits', ends'⟩ := exists_digits rest
    have notOpen : (es ++ rest).headD keyEof ≠ '}'.toNat := by
      intro close
      refine absent ⟨ds ++ [','.toNat, '}'.toNat], (es ++ rest).tail, _, _, ?_, .atLeast digits⟩
      obtain ⟨tail, both⟩ := cons_of_headD close (by decide)
      rw [both]
      simp
    have few : es.length < fuel := by
      have := congrArg List.length behind
      rw [List.length_drop, List.length_cons, List.length_append] at this
      omega
    obtain ⟨cur, ran, -⟩ := @intervalEnd_second p _ fuel es _ (saturated ds) behind digits' ends' few notOpen
    refine ⟨cur, begins ?_⟩
    split_ifs at ran with close
    · exfalso
      obtain ⟨tail, rfl⟩ := cons_of_headD close (by decide)
      have some' : es ≠ [] := by
        rintro rfl
        exact notOpen rfl
      exact absent ⟨ds ++ ','.toNat :: es ++ ['}'.toNat], tail, _, _, by simp, .between digits ⟨some', digits'⟩⟩
    · exact ran
  · by_cases close : rest.headD keyEof = '}'.toNat
    · obtain ⟨tail, rfl⟩ := cons_of_headD close (by decide)
      exact absurd ⟨ds ++ ['}'.toNat], tail, _, _, by simp, .exactly digits⟩ absent
    · exact ⟨_, begins (intervalEnd_other (congrArg (List.headD · keyEof) behind) comma close)⟩

/-! ## The callers -/

/-- How a brace is parsed that begins no interval: as a character, which the flag for UTF-16 forbids for
    a brace and a bracket. -/
def ordinaryBrace (p : Pattern) (isBackward : Bool) : ParserM Bool := do
  if p.isUtf16 then lex (parseError "syntax error")
  else
    p.parsePatternCharacter isBackward
    return true

theorem back_cursorAt {c : Nat} {tail : List Nat} {cur : Cursor} (is : p.text.drop k = c :: tail) :
    Ran (p.backTo ((p.cursorAt k).pc - 1)) cur () (p.cursorAt k) := by
  have pc : (p.cursorAt k).pc - 1 = k := by
    rw [cursorAt_cons is]
    rfl
  rw [pc, ran_backTo, cursorAt]
  unfold next
  cases p.source[k]? <;> rfl

variable {s : Parser} {cur : Cursor} {tail : List Nat}

theorem parseQuantifier_back (brace : p.text.drop k = '{'.toNat :: tail) (here : s.cursor = p.cursorAt k)
    (refused : Ran (p.parserIntervalQuantifier fuel) (p.cursorAt k) none cur)
    (atomBcStart captureStart captureEnd : Nat) :
    Ran (p.parseQuantifier fuel atomBcStart captureStart captureEnd) s () s := by
  have c : (p.cursorAt k).c0 = '{'.toNat := by rw [c0_cursorAt, brace, List.headD_cons]
  have read : Ran (p.readQuantifier fuel) (p.cursorAt k) .brace (p.cursorAt k) := by
    rw [readQuantifier, ran_bind]
    refine ⟨_, _, ran_c0.mpr ⟨rfl, rfl⟩, ?_⟩
    rw [c, if_neg (by decide), if_neg (by decide), if_neg (by decide), if_pos rfl, ran_bind]
    refine ⟨_, _, ran_getPc.mpr ⟨rfl, rfl⟩, ?_⟩
    rw [ran_bind]
    refine ⟨_, _, refused, ?_⟩
    rw [ran_bind]
    exact ⟨(), _, back_cursorAt brace, ran_pure.mpr ⟨rfl, rfl⟩⟩
  rw [parseQuantifier, ran_bind]
  refine ⟨.brace, s, ran_lex.mpr ⟨p.cursorAt k, ?_, ?_⟩, ran_pure.mpr ⟨rfl, rfl⟩⟩
  · rw [here]
    exact read
  · rw [← here]

theorem parseSimpleTerm_back (brace : p.text.drop k = '{'.toNat :: tail) (here : s.cursor = p.cursorAt k)
    (refused : Ran (p.parserIntervalQuantifier fuel) (p.cursorAt k) none cur) (isBackward : Bool) :
    p.parseSimpleTerm fuel isBackward '{'.toNat s = p.ordinaryBrace isBackward s := by
  have pc : Ran (lex getPc) s (p.cursorAt k).pc s :=
    ran_lex.mpr ⟨s.cursor, ran_getPc.mpr ⟨congrArg Cursor.pc here.symm, rfl⟩, rfl⟩
  have quantifier : Ran (lex (p.parserIntervalQuantifier fuel)) s none { s with cursor := cur } :=
    ran_lex.mpr ⟨cur, by rw [here]; exact refused, rfl⟩
  have back : Ran (lex (p.backTo ((p.cursorAt k).pc - 1))) { s with cursor := cur } () s :=
    ran_lex.mpr ⟨p.cursorAt k, back_cursorAt brace, by rw [← here]⟩
  rw [parseSimpleTerm, if_neg (by decide), if_neg (by decide), if_neg (by decide), if_neg (by decide),
    if_neg (by decide), if_neg (by decide), if_pos rfl, pc.bind_eq, quantifier.bind_eq]
  exact back.bind_eq _

/-- `ParserIntervalQuantifier` reads the intervals and nothing else, and where it reads none its callers go
    on at the brace. -/
structure ReadsInterval (p : Pattern) (fuel k : Nat) (tail : List Nat) : Prop where
  accepts : ∀ inner rest min max, tail = inner ++ rest → IntervalText IsNumeral inner min max →
    Ran (p.parserIntervalQuantifier fuel) (p.cursorAt k) (some (min, max)) (p.cursorAt (k + 1 + inner.length))
  refuses : ¬BeginsInterval IsNumeral tail →
    ∃ cur, Ran (p.parserIntervalQuantifier fuel) (p.cursorAt k) none cur
  quantifier : ¬BeginsInterval IsNumeral tail → ∀ s : Parser, s.cursor = p.cursorAt k →
    ∀ atomBcStart captureStart captureEnd,
      Ran (p.parseQuantifier fuel atomBcStart captureStart captureEnd) s () s
  term : ¬BeginsInterval IsNumeral tail → ∀ s : Parser, s.cursor = p.cursorAt k →
    ∀ isBackward, p.parseSimpleTerm fuel isBackward '{'.toNat s = p.ordinaryBrace isBackward s

/-- On a brace, the parser reads the intervals exactly if the text is none of `{}`, `{,}` and `{,5}`. -/
theorem readsInterval_iff (p : Pattern) (fuel k : Nat) (tail : List Nat)
    (brace : p.text.drop k = '{'.toNat :: tail) (enough : p.text.length < fuel) :
    ReadsInterval p fuel k tail ↔ ¬BeginsInterval (· = []) tail := by
  constructor
  · intro reads begins
    have numeral : ¬BeginsInterval IsNumeral tail := by
      intro begins'
      obtain ⟨ds, rest, parts, rfl, ends⟩ := begins.first
      obtain ⟨ds', rest', parts', ⟨some', digits'⟩, ends'⟩ := begins'.first
      exact some' (digits_unique (parts.symm.trans parts') nofun digits' ends ends').1.symm
    obtain ⟨inner, rest, min, max, parts, interval⟩ := begins
    obtain ⟨cur, refused⟩ := reads.refuses numeral
    have accepted := interval_accepted brace enough parts
      (interval.mono fun ds none' => none' ▸ fun d mem => absurd mem List.not_mem_nil)
    exact absurd (accepted.unique refused).1 nofun
  · intro noEmpty
    have refuses (absent : ¬BeginsInterval IsNumeral tail) :
        ∃ cur, Ran (p.parserIntervalQuantifier fuel) (p.cursorAt k) none cur := by
      refine interval_refused brace enough ?_
      rintro ⟨inner, rest, min, max, parts, interval⟩
      -- the first number has a digit or is empty
      cases interval with
      | @exactly ds digits =>
        by_cases none' : ds = []
        · exact noEmpty ⟨_, rest, _, _, parts, .exactly none'⟩
        · exact absent ⟨_, rest, _, _, parts, .exactly ⟨none', digits⟩⟩
      | @atLeast ds digits =>
        by_cases none' : ds = []
        · exact noEmpty ⟨_, rest, _, _, parts, .atLeast none'⟩
        · exact absent ⟨_, rest, _, _, parts, .atLeast ⟨none', digits⟩⟩
      | @between ds es digits second =>
        by_cases none' : ds = []
        · exact noEmpty ⟨_, rest, _, _, parts, .between none' second⟩
        · exact absent ⟨_, rest, _, _, parts, .between ⟨none', digits⟩ second⟩
    refine ⟨fun inner rest min max parts interval => ?_, refuses, fun absent s here => ?_, fun absent s here => ?_⟩
    · exact interval_accepted brace enough parts (interval.mono fun ds numeral => numeral.2)
    · obtain ⟨cur, refused⟩ := refuses absent
      exact parseQuantifier_back brace here refused
    · obtain ⟨cur, refused⟩ := refuses absent
      exact parseSimpleTerm_back brace here refused

theorem readsInterval_iff_bounds :
    let p := asciiPattern "a\x7b2,05\x7d".toList 0
    (p.text.drop 1 = '{'.toNat :: "2,05\x7d".toList.map Char.toNat ∧ p.text.length < 10) ∧
      (ReadsInterval p 10 1 ("2,05\x7d".toList.map Char.toNat) ↔
        ¬BeginsInterval (· = []) ("2,05\x7d".toList.map Char.toNat)) := by
  intro p
  have brace : p.text.drop 1 = '{'.toNat :: "2,05\x7d".toList.map Char.toNat := by decide
  have enough : p.text.length < 10 := by decide
  exact ⟨⟨brace, enough⟩, readsInterval_iff p 10 1 _ brace enough⟩

/-- In `a{,5}` an interval from zero to five is read. -/
theorem interval_without_number :
    let p := asciiPattern "a\x7b,5\x7d".toList 0
    p.text.drop 1 = '{'.toNat :: ",5\x7d".toList.map Char.toNat ∧
      ¬BeginsInterval IsNumeral (",5\x7d".toList.map Char.toNat) ∧
      Ran (p.parserIntervalQuantifier 6) (p.cursorAt 1) (some (0, 5)) (p.cursorAt 5) ∧
      ¬ReadsInterval p 6 1 (",5\x7d".toList.map Char.toNat) := by
  intro p
  have read : Ran (p.parserIntervalQuantifier 6) (p.cursorAt 1) (some (0, 5)) (p.cursorAt 5) := rfl
  have none' : ¬BeginsInterval IsNumeral (",5\x7d".toList.map Char.toNat) := by
    intro begins
    obtain ⟨ds, rest, parts, ⟨some', digits⟩, -⟩ := begins.first
    cases ds with
    | nil => exact some' rfl
    | cons d ds =>
      have comma : ','.toNat = d := (List.cons.inj parts).1
      exact absurd (digits d List.mem_cons_self) (by rw [← comma]; decide)
  refine ⟨by decide, none', read, fun reads => ?_⟩
  obtain ⟨cur, refused⟩ := reads.refuses none'
  exact absurd (read.unique refused).1 nofun

end Pattern

end RegExp

end ArkRuntime
