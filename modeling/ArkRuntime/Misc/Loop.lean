import Mathlib.Algebra.Order.Ring.Int

/-!
# Bounded loops

A `while` loop of the source is a step function that either goes round once more (`.inl`) or
leaves the loop with a result (`.inr`). `iter step fuel` runs at most `fuel` rounds and is `none`
when they do not suffice, so a loop that would not end is visible in the model. `iter_spec` is the
rule the loops of the development are proved with: an invariant, and a bound below the fuel that
each further round lowers. A `for` loop over `0, ..., n - 1` is `forLoop n`, with the rule
`forLoop_spec`.
-/

namespace ArkRuntime

variable {σ ρ : Type*}

/-- At most `fuel` rounds of the loop with body `step`. -/
def iter (step : σ → σ ⊕ ρ) : Nat → σ → Option ρ
  | 0, _ => none
  | fuel + 1, s =>
      match step s with
      | .inl s' => iter step fuel s'
      | .inr r => some r

theorem iter_inl {step : σ → σ ⊕ ρ} {s s' : σ} (fuel : Nat) (again : step s = .inl s') :
    iter step (fuel + 1) s = iter step fuel s' := by
  simp only [iter, again]

theorem iter_inr {step : σ → σ ⊕ ρ} {s : σ} {r : ρ} (fuel : Nat) (leave : step s = .inr r) :
    iter step (fuel + 1) s = some r := by
  simp only [iter, leave]

/-- More rounds do not change the result. -/
theorem iter_mono {step : σ → σ ⊕ ρ} {n m : Nat} {s : σ} {r : ρ} (run : iter step n s = some r)
    (le : n ≤ m) : iter step m s = some r := by
  induction n generalizing m s with
  | zero => cases run
  | succ n ih =>
    obtain ⟨m, rfl⟩ : ∃ k, m = k + 1 := ⟨m - 1, by omega⟩
    cases next : step s with
    | inl s' =>
      rw [iter_inl n next] at run
      rw [iter_inl m next]
      exact ih run (by omega)
    | inr r' =>
      rw [iter_inr n next] at run
      rw [iter_inr m next]
      exact run

/-- The rule for loops. `I n s` says that the loop is in a good state `s` and has at most `n`
    rounds before it; a round leaves with the postcondition, or goes on with a smaller bound. -/
theorem iter_spec {step : σ → σ ⊕ ρ} {I : Nat → σ → Prop} {Q : ρ → Prop}
    (round : ∀ n s, I n s →
      (∃ s' m, step s = .inl s' ∧ m < n ∧ I m s') ∨ (∃ r, step s = .inr r ∧ Q r)) :
    ∀ (fuel n : Nat) (s : σ), I n s → n < fuel → ∃ r, iter step fuel s = some r ∧ Q r := by
  intro fuel
  induction fuel with
  | zero => intro n s _ below; omega
  | succ fuel ih =>
    intro n s inv below
    rcases round n s inv with ⟨s', m, again, lower, inv'⟩ | ⟨r, leave, post⟩
    · obtain ⟨r, run, post⟩ := ih m s' inv' (by omega)
      exact ⟨r, by rw [iter_inl fuel again, run], post⟩
    · exact ⟨r, iter_inr fuel leave, post⟩

/-- A loop that walks along the states `s 0, s 1, ...` and leaves at the `m`-th. -/
theorem iter_walk {step : σ → σ ⊕ ρ} {s : Nat → σ} {r : ρ} {m fuel : Nat}
    (go : ∀ k < m, step (s k) = .inl (s (k + 1))) (stop : step (s m) = .inr r) (enough : m < fuel) :
    iter step fuel (s 0) = some r := by
  induction m generalizing s fuel with
  | zero =>
    obtain ⟨fuel, rfl⟩ : ∃ k, fuel = k + 1 := ⟨fuel - 1, by omega⟩
    exact iter_inr fuel stop
  | succ m ih =>
    obtain ⟨fuel, rfl⟩ : ∃ k, fuel = k + 1 := ⟨fuel - 1, by omega⟩
    rw [iter_inl fuel (go 0 (by omega))]
    exact ih (s := fun k => s (k + 1)) (fun k below => go (k + 1) (by omega)) stop (by omega)

/-- The loop `for (i = 0; i < n; i++)` with body `body i`. -/
def forLoop (body : Nat → σ → σ) : Nat → σ → σ
  | 0, s => s
  | n + 1, s => body n (forLoop body n s)

/-- The rule for `for` loops: the invariant before round `i` gives the invariant before the next. -/
theorem forLoop_spec {body : Nat → σ → σ} {I : Nat → σ → Prop} {n : Nat} {s : σ} (start : I 0 s)
    (round : ∀ i s, i < n → I i s → I (i + 1) (body i s)) : I n (forLoop body n s) := by
  induction n with
  | zero => exact start
  | succ n ih =>
    apply round n _ (Nat.lt_succ_self n)
    exact ih fun i s below => round i s (by omega)

end ArkRuntime

/-!
## Loops whose body can fail

Calls that return a value or end with a fault are values of `Except ε`, in sequence with `>>=`
(`bind_eq_ok` says what a sequence returned). The loops of a program that reads and writes arrays are
functions into `Except ε`: `forRange lo n` runs its body for `lo, ..., lo + n - 1`, `forDown n` for `n - 1, ..., 0`, and `whileLoop cond body`
as long as `cond` holds, for at most `fuel` rounds. Each loop has a rule that shows that it ends
well (`forRange_spec`, `forDown_spec`, `whileLoop_spec`) from an invariant that every round keeps
without failing; `forRange_ok`, `forDown_ok` and `whileLoop_ok` are the rules for bodies that may fail,
about the runs that did not.
-/

namespace ArkRuntime

section Sequence

variable {ε α β : Type}

@[simp] theorem ok_bind (a : α) (next : α → Except ε β) : (Except.ok a >>= next) = next a := rfl

@[simp] theorem error_bind (e : ε) (next : α → Except ε β) :
    (Except.error e >>= next) = Except.error e := rfl

@[simp] theorem pure_eq_ok (a : α) : (pure a : Except ε α) = Except.ok a := rfl

/-- What a sequence of two calls returns. -/
theorem bind_eq_ok {first : Except ε α} {next : α → Except ε β} {b : β} :
    (first >>= next) = .ok b ↔ ∃ a, first = .ok a ∧ next a = .ok b := by
  cases first with
  | ok a => simp
  | error e => simp

theorem bind_returns {first : Except ε α} {next : α → Except ε β} (returns : ∃ a, first = .ok a)
    (after : ∀ a, ∃ b, next a = .ok b) : ∃ b, (first >>= next) = .ok b := by
  obtain ⟨a, rfl⟩ := returns
  exact after a

end Sequence

variable {σ ε : Type}

/-- The loop `for (i = lo; i < lo + n; i++)`. -/
def forRange (body : Nat → σ → Except ε σ) : Nat → Nat → σ → Except ε σ
  | _, 0, s => .ok s
  | lo, n + 1, s =>
      match body lo s with
      | .ok s' => forRange body (lo + 1) n s'
      | .error e => .error e

/-- The loop `for (i = n - 1; i >= 0; i--)`. -/
def forDown (body : Nat → σ → Except ε σ) : Nat → σ → Except ε σ
  | 0, s => .ok s
  | n + 1, s =>
      match body n s with
      | .ok s' => forDown body n s'
      | .error e => .error e

/-- The loop `while (cond) body`, for at most `fuel` rounds; `unfinished` when they do not
    suffice. -/
def whileLoop (unfinished : ε) (cond : σ → Bool) (body : σ → Except ε σ) :
    Nat → σ → Except ε σ
  | 0, _ => .error unfinished
  | fuel + 1, s =>
      if cond s then
        match body s with
        | .ok s' => whileLoop unfinished cond body fuel s'
        | .error e => .error e
      else .ok s

theorem forRange_spec {body : Nat → σ → Except ε σ} {I : Nat → σ → Prop} {s : σ} (lo n : Nat)
    (start : I lo s)
    (round : ∀ i s, lo ≤ i → i < lo + n → I i s → ∃ s', body i s = .ok s' ∧ I (i + 1) s') :
    ∃ s', forRange body lo n s = .ok s' ∧ I (lo + n) s' := by
  induction n generalizing lo s with
  | zero => exact ⟨s, rfl, start⟩
  | succ n ih =>
    obtain ⟨s', ran, next⟩ := round lo s (Nat.le_refl lo) (by omega) start
    obtain ⟨r, rest, post⟩ := ih (lo + 1) next fun i s above below =>
      round i s (by omega) (by omega)
    refine ⟨r, ?_, ?_⟩
    · simp only [forRange, ran, rest]
    · rwa [show lo + (n + 1) = lo + 1 + n by omega]

theorem forDown_spec {body : Nat → σ → Except ε σ} {I : Nat → σ → Prop} {s : σ} (n : Nat)
    (start : I n s)
    (round : ∀ i s, i < n → I (i + 1) s → ∃ s', body i s = .ok s' ∧ I i s') :
    ∃ s', forDown body n s = .ok s' ∧ I 0 s' := by
  induction n generalizing s with
  | zero => exact ⟨s, rfl, start⟩
  | succ n ih =>
    obtain ⟨s', ran, next⟩ := round n s (Nat.lt_succ_self n) start
    obtain ⟨r, rest, post⟩ := ih next fun i s below => round i s (by omega)
    exact ⟨r, by simp only [forDown, ran, rest], post⟩

theorem forRange_ok {body : Nat → σ → Except ε σ} {I : σ → Prop}
    (round : ∀ i s s', I s → body i s = .ok s' → I s') :
    ∀ (n lo : Nat) (s r : σ), I s → forRange body lo n s = .ok r → I r := by
  intro n
  induction n with
  | zero =>
    intro lo s r inv ran
    cases ran
    exact inv
  | succ n ih =>
    intro lo s r inv ran
    rw [forRange] at ran
    split at ran
    · next s' body_eq => exact ih (lo + 1) s' r (round lo s s' inv body_eq) ran
    · cases ran

theorem forDown_ok {body : Nat → σ → Except ε σ} {I : σ → Prop}
    (round : ∀ i s s', I s → body i s = .ok s' → I s') :
    ∀ (n : Nat) (s r : σ), I s → forDown body n s = .ok r → I r := by
  intro n
  induction n with
  | zero =>
    intro s r inv ran
    cases ran
    exact inv
  | succ n ih =>
    intro s r inv ran
    rw [forDown] at ran
    split at ran
    · next s' body_eq => exact ih s' r (round n s s' inv body_eq) ran
    · cases ran

/-- `I n s` says that the loop is in a good state `s` and has at most `n` rounds before it. -/
theorem whileLoop_spec {unfinished : ε} {cond : σ → Bool} {body : σ → Except ε σ}
    {I : Nat → σ → Prop}
    (round : ∀ n s, I n s → cond s = true → ∃ s' m, body s = .ok s' ∧ m < n ∧ I m s') :
    ∀ (fuel n : Nat) (s : σ), I n s → n < fuel →
      ∃ s' m, whileLoop unfinished cond body fuel s = .ok s' ∧ cond s' = false ∧ I m s' := by
  intro fuel
  induction fuel with
  | zero => intro n s _ below; omega
  | succ fuel ih =>
    intro n s inv below
    by_cases again : cond s = true
    · obtain ⟨s', m, ran, lower, inv'⟩ := round n s inv again
      obtain ⟨r, k, rest, leave, post⟩ := ih m s' inv' (by omega)
      exact ⟨r, k, by simp only [whileLoop, again, ran, rest, if_true], leave, post⟩
    · refine ⟨s, n, ?_, Bool.eq_false_iff.mpr again, inv⟩
      rw [whileLoop, if_neg again]

theorem whileLoop_ok {unfinished : ε} {cond : σ → Bool} {body : σ → Except ε σ} {I : σ → Prop}
    (round : ∀ s s', I s → cond s = true → body s = .ok s' → I s') :
    ∀ (fuel : Nat) (s r : σ), I s → whileLoop unfinished cond body fuel s = .ok r →
      I r ∧ cond r = false := by
  intro fuel
  induction fuel with
  | zero => intro s r _ ran; cases ran
  | succ fuel ih =>
    intro s r inv ran
    by_cases again : cond s = true
    · rw [whileLoop, if_pos again] at ran
      rcases body_eq : body s with e | s'
      · rw [body_eq] at ran; cases ran
      · rw [body_eq] at ran
        exact ih s' r (round s s' inv again body_eq) ran
    · rw [whileLoop, if_neg again] at ran
      cases ran
      exact ⟨inv, Bool.eq_false_iff.mpr again⟩

end ArkRuntime
