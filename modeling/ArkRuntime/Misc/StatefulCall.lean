import Mathlib.Tactic.Common

/-!
# Calls that change a state

A function that changes a state and can fail is a value of `StateT σ (Except ε) α`. These are the rules
with which a run that did not fail is taken apart: `ran_bind` for two calls in sequence, and one rule for
every other way to build a call.
-/

namespace ArkRuntime

variable {σ ε α β : Type}

/-- The call returns `a` and leaves the state `s'`. -/
def Ran (m : StateT σ (Except ε) α) (s : σ) (a : α) (s' : σ) : Prop := m s = .ok (a, s')

theorem ran_bind {m : StateT σ (Except ε) α} {f : α → StateT σ (Except ε) β} {s s'' : σ} {b : β} :
    Ran (m >>= f) s b s'' ↔ ∃ a s', Ran m s a s' ∧ Ran (f a) s' b s'' := by
  have unfolded : (m >>= f) s = (m s >>= fun r => f r.1 r.2) := rfl
  unfold Ran
  rw [unfolded]
  cases m s with
  | error e => exact ⟨nofun, nofun⟩
  | ok r =>
    obtain ⟨a, s'⟩ := r
    constructor
    · intro ran
      exact ⟨a, s', rfl, ran⟩
    · rintro ⟨a', t, same, ran⟩
      cases same
      exact ran

theorem ran_pure {a b : α} {s s' : σ} :
    Ran (pure a : StateT σ (Except ε) α) s b s' ↔ b = a ∧ s = s' := by
  constructor
  · intro ran
    cases ran
    exact ⟨rfl, rfl⟩
  · rintro ⟨rfl, rfl⟩
    rfl

theorem ran_ite {c : Prop} [Decidable c] {m m' : StateT σ (Except ε) α} {s s' : σ} {a : α} :
    Ran (if c then m else m') s a s' ↔ (c ∧ Ran m s a s') ∨ (¬ c ∧ Ran m' s a s') := by
  split_ifs with holds
  · simp [holds]
  · simp [holds]

/-- A call that reads and writes the state and does not fail. -/
theorem ran_ok {f : σ → α × σ} {s s' : σ} {a : α} :
    Ran (fun s => (.ok (f s) : Except ε (α × σ))) s a s' ↔ a = (f s).1 ∧ s' = (f s).2 := by
  constructor
  · intro ran
    have same : f s = (a, s') := Except.ok.inj ran
    rw [same]
    exact ⟨rfl, rfl⟩
  · rintro ⟨rfl, rfl⟩
    rfl

/-- A call that reads the state only. -/
theorem ran_get {f : σ → α} {s s' : σ} {a : α} :
    Ran (fun s => (.ok (f s, s) : Except ε (α × σ))) s a s' ↔ a = f s ∧ s = s' :=
  ran_ok.trans (and_congr_right fun _ => eq_comm)

/-- A call that changes the state only. -/
theorem ran_update {f : σ → σ} {s s' : σ} {u : Unit} :
    Ran (fun s => (.ok ((), f s) : Except ε (Unit × σ))) s u s' ↔ s' = f s :=
  ran_ok.trans ⟨And.right, fun same => ⟨rfl, same⟩⟩

theorem Ran.unique {m : StateT σ (Except ε) α} {s s' s'' : σ} {a b : α} (first : Ran m s a s')
    (second : Ran m s b s'') : a = b ∧ s' = s'' := by
  have same := first.symm.trans second
  cases same
  exact ⟨rfl, rfl⟩

/-- What is behind a call that returned is all that is left to do. -/
theorem Ran.bind_eq {m : StateT σ (Except ε) α} {s s' : σ} {a : α} (ran : Ran m s a s')
    (f : α → StateT σ (Except ε) β) : (m >>= f) s = f a s' := by
  have unfolded : (m >>= f) s = (m s >>= fun r => f r.1 r.2) := rfl
  rw [unfolded, ran]
  rfl

end ArkRuntime
