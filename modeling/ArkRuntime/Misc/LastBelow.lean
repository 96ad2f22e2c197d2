import Mathlib.Order.Basic

/-!
# The last index below a bound

`lastBelow p n` is the greatest `i < n` with `p i`. A chain that is threaded through an array from
the back to the front, such as the entries of one hash bucket, is a list of such indices: behind
`i` comes `lastBelow p i`.
-/

namespace ArkRuntime

variable {p q : Nat → Prop} [DecidablePred p] [DecidablePred q]

def lastBelow (p : Nat → Prop) [DecidablePred p] : Nat → Option Nat
  | 0 => none
  | n + 1 => if p n then some n else lastBelow p n

theorem lastBelow_succ (n : Nat) :
    lastBelow p (n + 1) = if p n then some n else lastBelow p n := rfl

theorem lastBelow_congr {n : Nat} (same : ∀ i < n, (p i ↔ q i)) : lastBelow p n = lastBelow q n := by
  induction n with
  | zero => rfl
  | succ n ih =>
    rw [lastBelow_succ, lastBelow_succ, ih fun i below => same i (by omega)]
    simp only [same n (by omega)]

theorem lastBelow_eq_none {n : Nat} : lastBelow p n = none ↔ ∀ i < n, ¬ p i := by
  induction n with
  | zero => simp [lastBelow]
  | succ n ih =>
    rw [lastBelow_succ]
    split_ifs with last
    · simp only [false_iff, not_forall]
      exact ⟨n, by omega, not_not_intro last⟩
    · rw [ih]
      constructor
      · intro absent i below
        rcases Nat.lt_succ_iff_lt_or_eq.mp below with below | rfl
        · exact absent i below
        · exact last
      · exact fun absent i below => absent i (by omega)

theorem lastBelow_eq_some {n e : Nat} :
    lastBelow p n = some e ↔ e < n ∧ p e ∧ ∀ i, e < i → i < n → ¬ p i := by
  induction n with
  | zero => simp [lastBelow]
  | succ n ih =>
    rw [lastBelow_succ]
    split_ifs with last
    · simp only [Option.some.injEq]
      constructor
      · intro same
        subst same
        exact ⟨by omega, last, fun i above below => by omega⟩
      · intro ⟨below, _, absent⟩
        by_contra other
        exact absent n (by omega) (by omega) last
    · rw [ih]
      constructor
      · intro ⟨below, here, absent⟩
        refine ⟨by omega, here, fun i above below' => ?_⟩
        rcases Nat.lt_succ_iff_lt_or_eq.mp below' with below' | rfl
        · exact absent i above below'
        · exact last
      · intro ⟨below, here, absent⟩
        have before : e ≠ n := fun same => last (same ▸ here)
        exact ⟨by omega, here, fun i above below' => absent i above (by omega)⟩

end ArkRuntime
