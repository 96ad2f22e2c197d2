import ArkRuntime.BigInt.Reachable
import Mathlib.Data.Nat.Digits.Lemmas

/-!
# Numerals

`Conversion` divides the number that a string denotes again and again, in place: `divideChars_spec` is
one pass, and the remainders that the passes leave are the digits in the other radix
(`conversion_spec`). `SetBigInt` packs the binary numeral into digits (`packBinary_spec`), and
`GetBinary` takes them apart (`getBinary_spec`).
-/

namespace ArkRuntime

namespace BigInt

variable {r conv cur : Nat} {cs ds num : List Char} {c : Char} {x : BigInt}

/-! ## Digits as characters -/

/-- The character of a digit. -/
def digitChar (d : Nat) : Char := dp.getD d '0'

/-- The digit of a character. -/
def charDigit (c : Char) : Nat := (charToInt c).toNat

/-- `c` is a digit of base `r`, in either case. -/
def IsDigit (r : Nat) (c : Char) : Prop :=
  (('0' ≤ c ∧ c ≤ '9') ∨ ('A' ≤ c ∧ c ≤ 'Z') ∨ ('a' ≤ c ∧ c ≤ 'z')) ∧ charDigit c < r

/-- The number that the digits `cs` denote in base `r`, the highest first. -/
def numeralValue (r : Nat) (cs : List Char) : Nat := Nat.ofDigits r (cs.map charDigit).reverse

/-- The shortest digits of `n` in base `r`. -/
def digitsOf (r n : Nat) : List Char :=
  if n = 0 then ['0'] else (Nat.digits r n).reverse.map digitChar

/-- The shortest numeral of `z` in base `r`. -/
def numeral (r : Nat) (z : Int) : List Char :=
  (if z < 0 then ['-'] else []) ++ digitsOf r z.natAbs

theorem charDigit_digitChar : ∀ d < 36, charDigit (digitChar d) = d := by decide +kernel

theorem isDigit_digitChar_aux : ∀ d < 36, ('0' ≤ digitChar d ∧ digitChar d ≤ '9') ∨
    ('A' ≤ digitChar d ∧ digitChar d ≤ 'Z') ∨ ('a' ≤ digitChar d ∧ digitChar d ≤ 'z') := by
  decide +kernel

theorem isDigit_digitChar {d : Nat} (below : d < r) (small : r ≤ 36) : IsDigit r (digitChar d) :=
  ⟨isDigit_digitChar_aux d (by omega), by rwa [charDigit_digitChar d (by omega)]⟩

theorem readDp_spec (index : UInt32) (small : index.toNat < 36) :
    readDp index = .ok (digitChar index.toNat) := by
  have inside : index.toNat < dp.length := Nat.lt_trans small (by decide)
  simp only [readDp, digitChar, List.getElem?_eq_getElem inside, List.getD_eq_getElem?_getD,
    Option.getD_some]

@[simp] theorem numeralValue_nil (r : Nat) : numeralValue r [] = 0 := rfl

theorem numeralValue_cons (r : Nat) (c : Char) (cs : List Char) :
    numeralValue r (c :: cs) = charDigit c * r ^ cs.length + numeralValue r cs := by
  simp only [numeralValue, List.map_cons, List.reverse_cons, Nat.ofDigits_append,
    Nat.ofDigits_singleton, List.length_reverse, List.length_map]
  ring

theorem numeralValue_append (r : Nat) (cs ds : List Char) :
    numeralValue r (cs ++ ds) = numeralValue r cs * r ^ ds.length + numeralValue r ds := by
  simp only [numeralValue, List.map_append, List.reverse_append, Nat.ofDigits_append,
    List.length_reverse, List.length_map]
  ring

theorem numeralValue_lt (base : 1 < r) (digits : ∀ c ∈ cs, IsDigit r c) :
    numeralValue r cs < r ^ cs.length := by
  have below := Nat.ofDigits_lt_base_pow_length (b := r) (l := (cs.map charDigit).reverse) base (by
    intro d mem
    obtain ⟨c, mem', rfl⟩ := List.mem_map.mp (List.mem_reverse.mp mem)
    exact (digits c mem').2)
  rwa [List.length_reverse, List.length_map] at below

/-! ## One pass of `Division` -/

theorem divideChars_spec (conv2 : 2 ≤ conv) (conv36 : conv ≤ 36) (cur36 : cur ≤ 36) (num : List Char)
    (digits : ∀ c ∈ num, IsDigit cur c) (remain : UInt32) (below : remain.toNat < conv) :
    ∃ quotient rest, divideChars (UInt32.ofNat conv) (UInt32.ofNat cur) num remain =
        .ok (quotient, rest) ∧ (∀ c ∈ quotient, ∃ d < cur, c = digitChar d) ∧
      rest.toNat < conv ∧
      remain.toNat * cur ^ num.length + numeralValue cur num =
        numeralValue cur quotient * conv + rest.toNat ∧ quotient.length = num.length := by
  induction num generalizing remain with
  | nil => exact ⟨[], remain, rfl, by simp, below, by simp, rfl⟩
  | cons c num ih =>
    have digit : charDigit c < cur := (digits c List.mem_cons_self).2
    have convNat : (UInt32.ofNat conv).toNat = conv := by rw [UInt32.toNat_ofNat']; omega
    have curNat : (UInt32.ofNat cur).toNat = cur := by rw [UInt32.toNat_ofNat']; omega
    have bound : cur * remain.toNat + charDigit c < cur * conv := by
      have : cur * (remain.toNat + 1) ≤ cur * conv := Nat.mul_le_mul_left _ below
      rw [Nat.mul_add, Nat.mul_one] at this
      omega
    have small : cur * conv ≤ 36 * 36 := Nat.mul_le_mul cur36 conv36
    -- the radices are too small for an overflow
    have temp : (UInt32.ofNat cur * remain + charToInt c).toNat = cur * remain.toNat + charDigit c := by
      rw [UInt32.toNat_add, UInt32.toNat_mul, curNat]
      unfold charDigit at bound ⊢
      omega
    have quotientDigit : ((UInt32.ofNat cur * remain + charToInt c) / UInt32.ofNat conv).toNat =
        (cur * remain.toNat + charDigit c) / conv := by
      rw [UInt32.toNat_div, temp, convNat]
    have rest : ((UInt32.ofNat cur * remain + charToInt c) % UInt32.ofNat conv).toNat =
        (cur * remain.toNat + charDigit c) % conv := by
      rw [UInt32.toNat_mod, temp, convNat]
    have quotientBelow : (cur * remain.toNat + charDigit c) / conv < cur :=
      Nat.div_lt_of_lt_mul (by rwa [Nat.mul_comm conv])
    obtain ⟨quotient, last, ran, chars, lastBelow, value, len⟩ := ih
      (fun c mem => digits c (List.mem_cons_of_mem _ mem))
      ((UInt32.ofNat cur * remain + charToInt c) % UInt32.ofNat conv)
      (by rw [rest]; exact Nat.mod_lt _ (by omega))
    have read := readDp_spec ((UInt32.ofNat cur * remain + charToInt c) / UInt32.ofNat conv)
      (by rw [quotientDigit]; omega)
    rw [quotientDigit] at read
    refine ⟨digitChar ((cur * remain.toNat + charDigit c) / conv) :: quotient, last, ?_, ?_, lastBelow,
      ?_, by simpa using len⟩
    · simp only [divideChars, read, ran, ok_bind, pure_eq_ok]
    · intro c' mem
      rcases List.mem_cons.mp mem with rfl | mem'
      · exact ⟨_, quotientBelow, rfl⟩
      · exact chars c' mem'
    · rw [rest] at value
      have split := Nat.div_add_mod' (cur * remain.toNat + charDigit c) conv
      rw [numeralValue_cons, numeralValue_cons, charDigit_digitChar _ (by omega), len,
        List.length_cons, pow_succ]
      zify at split value ⊢
      linear_combination value - (cur : Int) ^ num.length * split

theorem numeralValue_dropWhile (r : Nat) (cs : List Char) :
    numeralValue r (cs.dropWhile (· == '0')) = numeralValue r cs := by
  induction cs with
  | nil => rfl
  | cons c cs ih =>
    rw [List.dropWhile_cons]
    split
    · next zero =>
      have : c = '0' := by simpa using zero
      rw [ih, numeralValue_cons, this, show charDigit '0' = 0 from rfl, Nat.zero_mul, Nat.zero_add]
    · rfl

theorem digitChar_eq_zero_iff : ∀ d < 36, digitChar d = '0' ↔ d = 0 := by decide +kernel

/-- Without leading zeros, a numeral of digits is empty or positive. -/
theorem numeralValue_pos_of_dropWhile (positive : 0 < r) (small : r ≤ 36)
    (chars : ∀ c ∈ cs, ∃ d < r, c = digitChar d) (nonempty : cs.dropWhile (· == '0') ≠ []) :
    0 < numeralValue r (cs.dropWhile (· == '0')) := by
  obtain ⟨c, rest, eq⟩ := List.exists_cons_of_ne_nil nonempty
  have head := List.head_dropWhile_not (· == '0') nonempty
  have mem : c ∈ cs := (List.dropWhile_sublist _).subset (by rw [eq]; exact List.mem_cons_self)
  obtain ⟨d, below, rfl⟩ := chars c mem
  simp only [eq, List.head_cons, beq_eq_false_iff_ne, ne_eq, digitChar_eq_zero_iff d (by omega)] at head
  rw [eq, numeralValue_cons, charDigit_digitChar d (by omega)]
  have : 0 < d * r ^ rest.length := Nat.mul_pos (by omega) (Nat.pow_pos positive)
  omega

theorem division_spec (conv2 : 2 ≤ conv) (conv36 : conv ≤ 36) (cur2 : 2 ≤ cur) (cur36 : cur ≤ 36)
    (digits : ∀ c ∈ num, IsDigit cur c) :
    ∃ newNum remain, division num (UInt32.ofNat conv) (UInt32.ofNat cur) = .ok (newNum, remain) ∧
      (∀ c ∈ newNum, IsDigit cur c) ∧ (newNum ≠ [] → 0 < numeralValue cur newNum) ∧
      numeralValue cur newNum = numeralValue cur num / conv ∧
      remain.toNat = numeralValue cur num % conv := by
  obtain ⟨quotient, remain, ran, chars, below, value, -⟩ :=
    divideChars_spec conv2 conv36 cur36 num digits 0 (show 0 < conv by omega)
  rw [UInt32.toNat_zero, Nat.zero_mul, Nat.zero_add] at value
  have divided := (Nat.div_mod_unique (show 0 < conv by omega)).mpr
    ⟨show remain.toNat + conv * numeralValue cur quotient = numeralValue cur num by
      rw [value, Nat.mul_comm]; omega, below⟩
  refine ⟨quotient.dropWhile (· == '0'), remain, ?_, ?_, ?_, ?_, divided.2.symm⟩
  · simp only [division, ran, ok_bind, pure_eq_ok]
  · intro c mem
    obtain ⟨d, below, rfl⟩ := chars c ((List.dropWhile_sublist _).subset mem)
    exact isDigit_digitChar below cur36
  · exact numeralValue_pos_of_dropWhile (by omega) cur36 chars
  · rw [numeralValue_dropWhile, divided.1]

/-! ## `Conversion` -/

/-- The digits of `total` that are found, and the number whose digits are still to be found. -/
structure Converted (conv cur total n : Nat) (s : List Char × List Char) : Prop where
  digits : ∀ c ∈ s.1, IsDigit cur c
  positive : s.1 ≠ [] → 0 < numeralValue cur s.1
  found : ∃ low, s.2 = (low.reverse).map digitChar ∧
    Nat.digits conv total = low ++ Nat.digits conv (numeralValue cur s.1)
  bound : numeralValue cur s.1 < 2 ^ n

theorem conversionRound_spec {total n : Nat} {s : List Char × List Char} (conv2 : 2 ≤ conv)
    (conv36 : conv ≤ 36) (cur2 : 2 ≤ cur) (cur36 : cur ≤ 36) (before : Converted conv cur total n s)
    (again : s.1 ≠ []) :
    ∃ s' m, conversionRound (UInt32.ofNat conv) (UInt32.ofNat cur) s = .ok s' ∧ m < n ∧
      Converted conv cur total m s' := by
  obtain ⟨digits, positive, ⟨low, res, found⟩, bound⟩ := before
  obtain ⟨newNum, remain, ran, digits', positive', quotient, rest⟩ :=
    division_spec conv2 conv36 cur2 cur36 digits
  have nonzero := positive again
  have read := readDp_spec remain (by
    have := Nat.mod_lt (numeralValue cur s.1) (show 0 < conv by omega)
    omega)
  have nPositive : 0 < n := by
    rcases Nat.eq_zero_or_pos n with rfl | some'
    · rw [pow_zero] at bound
      omega
    · exact some'
  refine ⟨(newNum, digitChar remain.toNat :: s.2), n - 1, ?_, by omega, digits', positive',
    ⟨low ++ [remain.toNat], ?_, ?_⟩, ?_⟩
  · simp only [conversionRound, ran, ok_bind, read, pure_eq_ok]
  · simp only [List.reverse_append, List.reverse_cons, List.reverse_nil, List.nil_append,
      List.cons_append, List.map_cons, res]
  · rw [found, List.append_assoc, List.singleton_append, quotient, rest,
      ← Nat.digits_def' (by omega) nonzero]
  · rw [quotient]
    apply Nat.div_lt_of_lt_mul
    calc numeralValue cur s.1 < 2 ^ n := bound
      _ = 2 * 2 ^ (n - 1) := by rw [← pow_succ', Nat.sub_add_cancel nPositive]
      _ ≤ conv * 2 ^ (n - 1) := Nat.mul_le_mul_right _ conv2

theorem numeralValue_lt_two_pow (cur2 : 2 ≤ cur) (cur36 : cur ≤ 36)
    (digits : ∀ c ∈ num, IsDigit cur c) : numeralValue cur num < 2 ^ (6 * num.length) := by
  calc numeralValue cur num < cur ^ num.length := numeralValue_lt (by omega) digits
    _ ≤ (2 ^ 6) ^ num.length := Nat.pow_le_pow_left (by omega) _
    _ = 2 ^ (6 * num.length) := by rw [← pow_mul]

/-- `Conversion` returns the shortest digits in the other radix. -/
theorem conversion_spec (conv2 : 2 ≤ conv) (conv36 : conv ≤ 36) (cur2 : 2 ≤ cur) (cur36 : cur ≤ 36)
    (nonempty : num ≠ []) (digits : ∀ c ∈ num, IsDigit cur c) :
    conversion num (UInt32.ofNat conv) (UInt32.ofNat cur) =
      .ok (digitsOf conv (numeralValue cur num)) := by
  have len : 0 < num.length := List.length_pos_of_ne_nil nonempty
  have notEmpty : num.isEmpty = false := by simpa using nonempty
  unfold conversion
  rcases Nat.eq_zero_or_pos (numeralValue cur num) with zero | positive
  · -- only zeros: one round
    obtain ⟨newNum, remain, ran, -, positive', quotient, rest⟩ :=
      division_spec conv2 conv36 cur2 cur36 digits
    rw [zero, Nat.zero_div] at quotient
    rw [zero, Nat.zero_mod] at rest
    have done : newNum = [] := by
      by_contra some'
      have := positive' some'
      omega
    have read := readDp_spec remain (by omega)
    rw [rest] at read
    obtain ⟨fuel, hFuel⟩ : ∃ fuel, conversionRounds num = fuel + 2 :=
      ⟨conversionRounds num - 2, by unfold conversionRounds; omega⟩
    rw [hFuel, digitsOf, if_pos zero]
    simp only [whileLoop, notEmpty, Bool.not_false, if_true, conversionRound, ran, read, ok_bind,
      pure_eq_ok, done, List.isEmpty_nil, Bool.not_true, Bool.false_eq_true, if_false]
    rfl
  · have start : Converted conv cur (numeralValue cur num) (6 * num.length) (num, []) :=
      ⟨digits, fun _ => positive, ⟨[], rfl, rfl⟩, numeralValue_lt_two_pow cur2 cur36 digits⟩
    obtain ⟨s, m, ran, leave, -, -, ⟨low, res, found⟩, -⟩ := @whileLoop_spec _ _
      BigIntFault.unfinished (fun s : List Char × List Char => !s.1.isEmpty) _
      (fun n s => Converted conv cur (numeralValue cur num) n s)
      (fun n s before again => conversionRound_spec conv2 conv36 cur2 cur36 before (by
        simpa using again))
      (conversionRounds num) (6 * num.length) (num, []) start (by unfold conversionRounds; omega)
    have done : s.1 = [] := by simpa using leave
    rw [done, numeralValue_nil, Nat.digits_zero, List.append_nil] at found
    rw [ran, ok_bind, digitsOf, if_neg (by omega), found, res]
    rfl

theorem digitsOf_isDigit (r2 : 2 ≤ r) (r36 : r ≤ 36) (n : Nat) : ∀ c ∈ digitsOf r n, IsDigit r c := by
  intro c mem
  unfold digitsOf at mem
  split at mem
  · rw [List.mem_singleton.mp mem]
    exact ⟨by decide, by rw [show charDigit '0' = 0 from rfl]; omega⟩
  · obtain ⟨d, mem', rfl⟩ := List.mem_map.mp mem
    exact isDigit_digitChar (Nat.digits_lt_base (by omega) (List.mem_reverse.mp mem')) r36

theorem digitsOf_ne_nil (n : Nat) : digitsOf r n ≠ [] := by
  unfold digitsOf
  split
  · simp
  · next nonzero => simpa using Nat.digits_ne_nil_iff_ne_zero.mpr nonzero

theorem numeralValue_digitsOf (r2 : 2 ≤ r) (r36 : r ≤ 36) (n : Nat) :
    numeralValue r (digitsOf r n) = n := by
  unfold digitsOf
  split
  · next zero => rw [zero]; rfl
  · have same : ((Nat.digits r n).reverse.map digitChar).map charDigit = (Nat.digits r n).reverse := by
      rw [List.map_map]
      conv_rhs => rw [← List.map_id (Nat.digits r n).reverse]
      apply List.map_congr_left
      intro d mem
      exact charDigit_digitChar d (Nat.lt_of_lt_of_le
        (Nat.digits_lt_base (by omega) (List.mem_reverse.mp mem)) r36)
    rw [numeralValue, same, List.reverse_reverse, Nat.ofDigits_digits]

/-! ## Binary numerals and digits -/

/-- A binary digit. -/
def IsBit (c : Char) : Prop := c = '0' ∨ c = '1'

theorem isBit_of_isDigit (digit : IsDigit 2 c) : IsBit c := by
  obtain ⟨range, small⟩ := digit
  simp only [Char.le_def, UInt32.le_iff_toNat_le] at range
  simp only [charDigit, charToInt, Char.le_def, UInt32.le_iff_toNat_le] at small
  obtain ⟨h0, h9, hA, hZ, ha, hz⟩ : '0'.val.toNat = 48 ∧ '9'.val.toNat = 57 ∧ 'A'.val.toNat = 65 ∧
      'Z'.val.toNat = 90 ∧ 'a'.val.toNat = 97 ∧ 'z'.val.toNat = 122 := by decide
  have ten : (10 : UInt32).toNat = 10 := rfl
  have values : c.val.toNat = 48 ∨ c.val.toNat = 49 := by
    split at small
    · rw [UInt32.toNat_sub] at small
      omega
    · split at small
      · rw [UInt32.toNat_add, UInt32.toNat_sub] at small
        omega
      · split at small
        · rw [UInt32.toNat_add, UInt32.toNat_sub] at small
          omega
        · omega
  rcases values with zero | one
  · exact .inl (Char.ext (UInt32.toNat_inj.mp zero))
  · exact .inr (Char.ext (UInt32.toNat_inj.mp one))

theorem isDigit_of_isBit (bit : IsBit c) : IsDigit 2 c := by
  rcases bit with rfl | rfl
  · exact ⟨by decide, by decide⟩
  · exact ⟨by decide, by decide⟩

theorem shiftLeft_one_or {v b : UInt32} (small : v.toNat < 2 ^ 31) (bit : b.toNat < 2) :
    ((v <<< 1) ||| b).toNat = v.toNat * 2 + b.toNat := by
  rw [UInt32.toNat_or, UInt32.toNat_shiftLeft, show (1 : UInt32).toNat % 32 = 1 from rfl,
    Nat.shiftLeft_eq, Nat.mod_eq_of_lt (by omega), pow_one, Nat.mul_comm,
    show 2 * v.toNat = 2 ^ 1 * v.toNat by rw [pow_one], ← Nat.two_pow_add_eq_or_of_lt bit]

theorem packBits_spec (cs : List Char) (bits : ∀ c ∈ cs, IsBit c) {v : UInt32} {k : Nat}
    (small : v.toNat < 2 ^ k) (room : k + cs.length ≤ 32) :
    (packBits v cs).toNat = v.toNat * 2 ^ cs.length + numeralValue 2 cs := by
  induction cs generalizing v k with
  | nil => simp [packBits]
  | cons c cs ih =>
    have bit : (c.val - '0'.val).toNat = charDigit c ∧ charDigit c < 2 := by
      rcases bits c List.mem_cons_self with rfl | rfl <;> exact ⟨rfl, by decide⟩
    have below : v.toNat < 2 ^ 31 := by
      have : k ≤ 31 := by
        rw [List.length_cons] at room
        omega
      exact Nat.lt_of_lt_of_le small (Nat.pow_le_pow_right (by norm_num) this)
    have step : ((v <<< 1) ||| (c.val - '0'.val)).toNat = v.toNat * 2 + charDigit c := by
      rw [shiftLeft_one_or below (by rw [bit.1]; exact bit.2), bit.1]
    have rest := ih (fun c mem => bits c (List.mem_cons_of_mem _ mem))
      (v := (v <<< 1) ||| (c.val - '0'.val)) (k := k + 1)
      (by rw [step, pow_succ]; omega) (by rw [List.length_cons] at room; omega)
    rw [step] at rest
    simp only [packBits, List.foldl_cons] at rest ⊢
    rw [rest, numeralValue_cons, List.length_cons, pow_succ]
    ring

/-- The full words from `i` on are packed. -/
structure Packed (len total i : Nat) (s : List UInt32 × List Char) : Prop where
  length : s.1.length = len
  bits : ∀ c ∈ s.2, IsBit c
  rest : s.2.length = 32 * i
  value : magnitude s.1 + numeralValue 2 s.2 = total
  zeros : magnitude (s.1.take i) = 0

theorem packRound_spec {len total i : Nat} {s : List UInt32 × List Char} (inside : i < len)
    (before : Packed len total (i + 1) s) :
    ∃ s', packRound i s = .ok s' ∧ Packed len total i s' := by
  obtain ⟨length, bits, rest, value, zeros⟩ := before
  have inside' : i < s.1.length := by omega
  obtain ⟨old, read⟩ := exists_digit inside'
  rw [magnitude_take_succ read] at zeros
  have lenTake : (s.2.take 32).length = 32 := by rw [List.length_take]; omega
  have lenDrop : (s.2.drop 32).length = 32 * i := by rw [List.length_drop]; omega
  have word := packBits_spec (s.2.take 32) (fun c mem => bits c (List.mem_of_mem_take mem)) (v := 0)
    (k := 0) (by simp) (by omega)
  rw [UInt32.toNat_zero, Nat.zero_mul, Nat.zero_add] at word
  have split := numeralValue_append 2 (s.2.take 32) (s.2.drop 32)
  rw [List.take_append_drop, lenDrop, pow_mul] at split
  have replaced := magnitude_set (packBits 0 (s.2.take 32)) read
  refine ⟨(s.1.set i (packBits 0 (s.2.take 32)), s.2.drop 32), ?_, by simpa using length,
    fun c mem => bits c (List.mem_of_mem_drop mem), lenDrop, ?_, ?_⟩
  · simp only [packRound, show dateBits = 32 from rfl, setDigit_of_lt _ inside', ok_bind, pure_eq_ok]
  · simp only
    rw [word] at replaced
    have oldZero : (2 ^ 32) ^ i * old.toNat = 0 := by omega
    rw [Nat.mul_comm] at split
    omega
  · simp only
    rw [List.take_set_of_le (Nat.le_refl i)]
    omega

/-- The number of digits that a binary numeral is packed into. -/
def wordsFor (len : Nat) : Nat := if len % 32 = 0 then len / 32 else len / 32 + 1

theorem wordsFor_le_iff (len : Nat) : wordsFor len ≤ maxSize ↔ len ≤ maxBits := by
  rw [show maxBits = 32 * maxSize from rfl]
  unfold wordsFor
  split <;> omega

theorem packFirst_spec {binaryStr : List Char} (bits : ∀ c ∈ binaryStr, IsBit c) :
    ∃ digits, packFirst (List.replicate (wordsFor binaryStr.length) 0) binaryStr
        (binaryStr.length / 32) (binaryStr.length % 32) = .ok digits ∧
      Packed (wordsFor binaryStr.length) (numeralValue 2 binaryStr) (binaryStr.length / 32)
        (digits, binaryStr.drop (binaryStr.length % 32)) := by
  set mod := binaryStr.length % 32 with hMod
  have lenDrop : (binaryStr.drop mod).length = 32 * (binaryStr.length / 32) := by
    rw [List.length_drop]
    omega
  have bits' : ∀ c ∈ binaryStr.drop mod, IsBit c := fun c mem => bits c (List.mem_of_mem_drop mem)
  unfold packFirst wordsFor
  by_cases aligned : mod = 0
  · rw [if_pos aligned]
    refine ⟨_, rfl, by simp [← hMod, aligned], bits', lenDrop, ?_, ?_⟩
    · simp [aligned, magnitude_replicate]
    · simp [List.take_replicate, magnitude_replicate]
  · have inside : binaryStr.length / 32 <
        (List.replicate (binaryStr.length / 32 + 1) (0 : UInt32)).length := by simp
    have lenTake : (binaryStr.take mod).length = mod := by rw [List.length_take]; omega
    have word := packBits_spec (binaryStr.take mod) (fun c mem => bits c (List.mem_of_mem_take mem))
      (v := 0) (k := 0) (by simp) (by omega)
    rw [UInt32.toNat_zero, Nat.zero_mul, Nat.zero_add] at word
    have split := numeralValue_append 2 (binaryStr.take mod) (binaryStr.drop mod)
    rw [List.take_append_drop, lenDrop, pow_mul] at split
    rw [if_neg aligned, ← hMod, if_neg aligned]
    refine ⟨_, setDigit_of_lt _ inside, by simp, bits', lenDrop, ?_, ?_⟩
    · simp only
      rw [magnitude_set_last _ (by simp), List.take_replicate, magnitude_replicate, word, split]
      ring
    · simp only
      rw [List.take_set_of_le (Nat.le_refl _), List.take_replicate, magnitude_replicate]

/-- A binary numeral becomes the BigInt of its number, or is too long. -/
theorem packBinary_spec (sign : Bool) {binaryStr : List Char} (nonempty : binaryStr ≠ [])
    (bits : ∀ c ∈ binaryStr, IsBit c) :
    (maxBits < binaryStr.length ∧ packBinary sign binaryStr = .error sizeExceeded) ∨
      (binaryStr.length ≤ maxBits ∧
        Returns (packBinary sign binaryStr) (signum sign * numeralValue 2 binaryStr)) := by
  have len : 0 < binaryStr.length := List.length_pos_of_ne_nil nonempty
  have iff' := wordsFor_le_iff binaryStr.length
  simp only [packBinary, show dateBits = 32 from rfl]
  rcases createBigint_cases (wordsFor binaryStr.length) with ⟨large, failed⟩ | ⟨small, created⟩
  · left
    refine ⟨by omega, ?_⟩
    unfold wordsFor at failed
    rw [failed, error_bind]
  · right
    refine ⟨by omega, ?_⟩
    obtain ⟨digits, ranFirst, start⟩ := packFirst_spec bits
    have shorter : binaryStr.length / 32 ≤ wordsFor binaryStr.length := by
      unfold wordsFor
      split <;> omega
    obtain ⟨s, ran, inv⟩ := forDown_spec
      (I := fun i s => Packed (wordsFor binaryStr.length) (numeralValue 2 binaryStr) i s)
      (binaryStr.length / 32) start fun i s below before => packRound_spec (by omega) before
    have done : s.2 = [] := List.eq_nil_of_length_eq_zero (by simpa using inv.rest)
    have value := inv.value
    rw [done, numeralValue_nil, Nat.add_zero] at value
    have positive : 0 < wordsFor binaryStr.length := by
      unfold wordsFor
      split <;> omega
    unfold wordsFor at created ranFirst
    rw [created, ok_bind, ranFirst, ok_bind, ran, ok_bind, ← value]
    exact rightTruncate_digits sign (by rw [inv.length]; exact positive) (by rw [inv.length]; exact small)

theorem pushBits_spec (n : Nat) (v : UInt32) (res : List Char) (bits : ∀ c ∈ res, IsBit c) :
    (pushBits n v res).length = n + res.length ∧ (∀ c ∈ pushBits n v res, IsBit c) ∧
      numeralValue 2 (pushBits n v res) =
        v.toNat % 2 ^ n * 2 ^ res.length + numeralValue 2 res := by
  induction n generalizing v res with
  | zero => exact ⟨by simp [pushBits], bits, by simp [pushBits, Nat.mod_one]⟩
  | succ n ih =>
    have low : (v &&& 1).toNat = v.toNat % 2 := by
      rw [UInt32.toNat_and]
      simp [Nat.and_one_is_mod]
    have half : (v >>> 1).toNat = v.toNat / 2 := by
      rw [UInt32.toNat_shiftRight]
      simp [Nat.shiftRight_eq_div_pow]
    have bit : IsBit (if v &&& 1 = 1 then '1' else '0') ∧
        charDigit (if v &&& 1 = 1 then '1' else '0') = v.toNat % 2 := by
      rw [← low]
      split
      · next one => exact ⟨.inr rfl, by rw [one]; rfl⟩
      · next other =>
        refine ⟨.inl rfl, ?_⟩
        rw [← UInt32.toNat_inj, low] at other
        rw [low, show charDigit '0' = 0 from rfl]
        simp only [UInt32.reduceToNat] at other
        omega
    obtain ⟨len, bits', value⟩ := ih (v >>> 1) ((if v &&& 1 = 1 then '1' else '0') :: res) (by
      intro c mem
      rcases List.mem_cons.mp mem with rfl | mem'
      · exact bit.1
      · exact bits c mem')
    refine ⟨?_, bits', ?_⟩
    · rw [pushBits, len, List.length_cons]
      omega
    · rw [pushBits, value, half, numeralValue_cons, bit.2, List.length_cons, pow_succ 2 n,
        Nat.mul_comm (2 ^ n) 2, Nat.mod_mul, pow_succ]
      ring

theorem pushDigits_spec (digits : List UInt32) (res : List Char) (bits : ∀ c ∈ res, IsBit c) :
    (∀ c ∈ digits.foldl (fun res val => pushBits dateBits val res) res, IsBit c) ∧
      numeralValue 2 (digits.foldl (fun res val => pushBits dateBits val res) res) =
        magnitude digits * 2 ^ res.length + numeralValue 2 res := by
  induction digits generalizing res with
  | nil => exact ⟨bits, by simp⟩
  | cons d digits ih =>
    obtain ⟨len, bits', value⟩ := pushBits_spec dateBits d res bits
    obtain ⟨bits'', value'⟩ := ih _ bits'
    refine ⟨bits'', ?_⟩
    rw [List.foldl_cons, value', len, value, magnitude_cons, show dateBits = 32 from rfl,
      Nat.mod_eq_of_lt d.toNat_lt, pow_add]
    ring

/-- `GetBinary` returns a binary numeral of the magnitude. -/
theorem getBinary_spec (x : BigInt) :
    getBinary x ≠ [] ∧ (∀ c ∈ getBinary x, IsBit c) ∧
      numeralValue 2 (getBinary x) = magnitude x.digits := by
  obtain ⟨bits, value⟩ := pushDigits_spec x.digits [] (by simp)
  rw [List.length_nil, pow_zero, Nat.mul_one, numeralValue_nil, Nat.add_zero,
    ← numeralValue_dropWhile] at value
  simp only [getBinary, deZero]
  split
  · next empty =>
    rw [List.isEmpty_iff.mp empty] at value
    exact ⟨by simp, by simp [IsBit], value⟩
  · next some' =>
    exact ⟨by simpa using some', fun c mem => bits c ((List.dropWhile_sublist _).subset mem), value⟩

/-! ## `ToStdString` and `SetBigInt` -/

theorem toStdString_spec (cx : x.Canonical) (r2 : 2 ≤ r) (r36 : r ≤ 36) :
    toStdString x (UInt32.ofNat r) = .ok (numeral r x.toInt) := by
  obtain ⟨nonempty, bits, value⟩ := getBinary_spec x
  have converted := conversion_spec r2 r36 (Nat.le_refl 2) (by omega) nonempty
    fun c mem => isDigit_of_isBit (bits c mem)
  rw [value] at converted
  have converted' : conversion (getBinary x) (UInt32.ofNat r) 2 =
      .ok (digitsOf r (magnitude x.digits)) := converted
  rw [toStdString, converted', ok_bind, numeral, toInt_natAbs]
  by_cases negative : x.sign = true
  · rw [if_pos negative, if_pos (cx.sign_iff.mp negative)]
    rfl
  · rw [if_neg negative, if_neg (fun below => negative (cx.sign_iff.mpr below))]
    rfl

/-- The binary numeral that `SetBigInt` packs. -/
def binaryDigits (r : Nat) (ds : List Char) : List Char :=
  if r = 2 then ds else digitsOf 2 (numeralValue r ds)

theorem toBinary_spec (r2 : 2 ≤ r) (r36 : r ≤ 36) (nonempty : ds ≠ [])
    (digits : ∀ c ∈ ds, IsDigit r c) :
    toBinary ds (UInt32.ofNat r) = .ok (binaryDigits r ds) ∧ binaryDigits r ds ≠ [] ∧
      (∀ c ∈ binaryDigits r ds, IsBit c) ∧
      numeralValue 2 (binaryDigits r ds) = numeralValue r ds := by
  unfold toBinary binaryDigits
  by_cases binary : r = 2
  · subst binary
    rw [if_neg (by decide), if_pos rfl]
    exact ⟨rfl, nonempty, fun c mem => isBit_of_isDigit (digits c mem), rfl⟩
  · have other : UInt32.ofNat r ≠ 2 := by
      intro eq
      have := congrArg UInt32.toNat eq
      rw [UInt32.toNat_ofNat'] at this
      simp only [UInt32.reduceToNat] at this
      omega
    rw [if_pos other, if_neg binary]
    exact ⟨conversion_spec (Nat.le_refl 2) (show 2 ≤ 36 by omega) r2 r36 nonempty digits,
      digitsOf_ne_nil _,
      fun c mem => isBit_of_isDigit (digitsOf_isDigit (Nat.le_refl 2) (by omega) _ c mem),
      numeralValue_digitsOf (Nat.le_refl 2) (by omega) _⟩

/-- Digits with an optional sign. -/
def signed (negative : Bool) (ds : List Char) : List Char :=
  if negative then '-' :: ds else ds

theorem not_isDigit_minus : ¬IsDigit r '-' := fun digit => absurd digit.1 (by decide)

theorem setBigInt_spec (negative : Bool) (r2 : 2 ≤ r) (r36 : r ≤ 36) (nonempty : ds ≠ [])
    (digits : ∀ c ∈ ds, IsDigit r c) :
    (maxBits < (binaryDigits r ds).length ∧
        setBigInt (signed negative ds) (UInt32.ofNat r) = .error sizeExceeded) ∨
      ((binaryDigits r ds).length ≤ maxBits ∧
        Returns (setBigInt (signed negative ds) (UInt32.ofNat r))
          (signum negative * numeralValue r ds)) := by
  obtain ⟨converted, binaryNonempty, bits, value⟩ := toBinary_spec r2 r36 nonempty digits
  have packed : setBigInt (signed negative ds) (UInt32.ofNat r) =
      packBinary negative (binaryDigits r ds) := by
    rcases negative with _ | _
    · obtain ⟨c, rest, rfl⟩ := List.exists_cons_of_ne_nil nonempty
      have notMinus : c ≠ '-' := fun eq => not_isDigit_minus (eq ▸ digits c List.mem_cons_self)
      simp [setBigInt, signed, notMinus, converted]
    · simp [setBigInt, signed, converted]
  rw [packed, ← value]
  exact packBinary_spec negative binaryNonempty bits

theorem length_digitsOf_le_iff (n : Nat) {k : Nat} (positive : 0 < k) :
    (digitsOf 2 n).length ≤ k ↔ n < 2 ^ k := by
  unfold digitsOf
  split
  · next zero =>
    rw [zero]
    exact ⟨fun _ => Nat.pow_pos (by norm_num), fun _ => positive⟩
  · rw [List.length_map, List.length_reverse, Nat.digits_length_le_iff (by norm_num)]

/-- The limit on the packed numeral is a limit on the number, unless leading zeros are packed. -/
theorem length_binaryDigits (base : 2 ≤ r) (digits : ∀ c ∈ ds, IsDigit r c) :
    ((binaryDigits r ds).length ≤ maxBits → numeralValue r ds < 2 ^ maxBits) ∧
      (numeralValue r ds < 2 ^ maxBits → (r = 2 → ds.length ≤ maxBits) →
        (binaryDigits r ds).length ≤ maxBits) := by
  unfold binaryDigits
  by_cases binary : r = 2
  · subst binary
    rw [if_pos rfl]
    refine ⟨fun short => ?_, fun _ short => short rfl⟩
    exact Nat.lt_of_lt_of_le (numeralValue_lt (by norm_num) digits)
      (Nat.pow_le_pow_right (by norm_num) short)
  · rw [if_neg binary, length_digitsOf_le_iff _ (show 0 < maxBits by decide)]
    exact ⟨id, fun small _ => small⟩

theorem numeral_eq (cx : x.Canonical) :
    numeral r x.toInt = signed x.sign (digitsOf r (magnitude x.digits)) := by
  rw [numeral, toInt_natAbs, signed]
  by_cases negative : x.sign = true
  · rw [if_pos negative, if_pos (cx.sign_iff.mp negative)]
    rfl
  · rw [if_neg negative, if_neg (fun below => negative (cx.sign_iff.mpr below))]
    rfl

theorem length_digitsOf_magnitude (cx : x.Canonical) :
    (digitsOf 2 (magnitude x.digits)).length ≤ maxBits :=
  (length_digitsOf_le_iff _ (by decide)).mpr (magnitude_lt_two_pow cx)

/-- A numeral is read back. -/
theorem setBigInt_numeral (cx : x.Canonical) (r2 : 2 ≤ r) (r36 : r ≤ 36) :
    setBigInt (numeral r x.toInt) (UInt32.ofNat r) = .ok x := by
  have digits := digitsOf_isDigit r2 r36 (magnitude x.digits)
  have value := numeralValue_digitsOf r2 r36 (magnitude x.digits)
  rw [numeral_eq cx]
  rcases setBigInt_spec x.sign r2 r36 (digitsOf_ne_nil _) digits with ⟨long, -⟩ | ⟨-, returns⟩
  · have short : (binaryDigits r (digitsOf r (magnitude x.digits))).length ≤ maxBits := by
      apply (length_binaryDigits r2 digits).2
      · rw [value]
        exact magnitude_lt_two_pow cx
      · rintro rfl
        exact length_digitsOf_magnitude cx
    omega
  · rw [value, ← toInt_eq] at returns
    obtain ⟨s, ran, canonical, same⟩ := returns
    rw [ran, canonical.ext cx same]

/-- `ToStdString` writes the shortest numeral and `SetBigInt` reads numerals; a number of more than
    `MAXBITS` bits is refused. -/
theorem numerals_exact (r : Nat) (r2 : 2 ≤ r) (r36 : r ≤ 36) :
    (∀ x : BigInt, x.Canonical → toStdString x (UInt32.ofNat r) = .ok (numeral r x.toInt) ∧
      setBigInt (numeral r x.toInt) (UInt32.ofNat r) = .ok x) ∧
    ∀ (negative : Bool) (ds : List Char), ds ≠ [] → (∀ c ∈ ds, IsDigit r c) →
      (numeralValue r ds < 2 ^ maxBits → (r = 2 → ds.length ≤ maxBits) →
        Returns (setBigInt (signed negative ds) (UInt32.ofNat r))
          (signum negative * numeralValue r ds)) ∧
      (2 ^ maxBits ≤ numeralValue r ds →
        setBigInt (signed negative ds) (UInt32.ofNat r) = .error sizeExceeded) := by
  refine ⟨fun x cx => ⟨toStdString_spec cx r2 r36, setBigInt_numeral cx r2 r36⟩, ?_⟩
  intro negative ds nonempty digits
  obtain ⟨fromShort, toShort⟩ := length_binaryDigits r2 digits
  rcases setBigInt_spec negative r2 r36 nonempty digits with ⟨long, failed⟩ | ⟨short, returns⟩
  · refine ⟨fun small unpadded => ?_, fun _ => failed⟩
    have := toShort small unpadded
    omega
  · exact ⟨fun _ _ => returns, fun large => absurd (fromShort short) (Nat.not_lt.mpr large)⟩

theorem numerals_exact_base_ten :
    let x : BigInt := ⟨true, [1215752192, 23]⟩
    x.Canonical ∧ toStdString x (UInt32.ofNat 10) = .ok "-100000000000".toList ∧
      setBigInt "-100000000000".toList (UInt32.ofNat 10) = .ok x := by
  intro x
  have cx : x.Canonical := by decide
  have same : numeral 10 x.toInt = "-100000000000".toList := by decide +kernel
  have both := (numerals_exact 10 (by norm_num) (by norm_num)).1 x cx
  rw [same] at both
  exact ⟨cx, both⟩

/-- A binary numeral of `MAXBITS + 1` ones has no BigInt. -/
theorem setBigInt_refuses_long :
    let ds := List.replicate (maxBits + 1) '1'
    ds ≠ [] ∧ (∀ c ∈ ds, IsDigit 2 c) ∧ setBigInt ds 2 = .error sizeExceeded ∧
      ¬Returns (setBigInt ds 2) (numeralValue 2 ds) := by
  intro ds
  have nonempty : ds ≠ [] := by simp [ds]
  have digits : ∀ c ∈ ds, IsDigit 2 c := by
    intro c mem
    rw [List.eq_of_mem_replicate mem]
    exact isDigit_of_isBit (.inr rfl)
  have throws : setBigInt ds 2 = .error sizeExceeded := by
    rcases setBigInt_spec false (r := 2) (Nat.le_refl 2) (by norm_num) nonempty digits with
      ⟨-, failed⟩ | ⟨short, -⟩
    · exact failed
    · rw [binaryDigits, if_pos rfl, List.length_replicate] at short
      omega
  refine ⟨nonempty, digits, throws, ?_⟩
  rintro ⟨r, ran, -⟩
  rw [throws] at ran
  cases ran

end BigInt

end ArkRuntime
