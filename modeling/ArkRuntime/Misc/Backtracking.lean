import ArkRuntime.Misc.Loop

/-!
# Backtracking

A program that can split and look around is run in two ways. `Backtracks` is its recursive meaning: a
split tries its second alternative where the first one fails, from the state that it saved, and a look
around runs its body to the cut at its end. `step` is a machine that keeps the saved states on one stack
of frames and unwinds it when an alternative fails or a body ends.

The two agree (`runs_of_backtracks`, `backtracks_of_runs`). The machine of a program may do more than
`step` on some stacks, say on the empty one: it has to agree with `step` only on the stacks that `G`
allows, and what is pushed onto such a stack is allowed again.
-/

namespace ArkRuntime

namespace Backtracking

inductive FrameKind where
  | split
  | ahead
  | notAhead
deriving DecidableEq, Repr

/-- A saved state, with what it was saved for. -/
structure Frame (σ : Type) where
  kind : FrameKind
  saved : σ

/-- What one instruction does. -/
inductive Effect (σ : Type) where
  | next (s : σ)
  | push (kind : FrameKind) (saved s : σ)
  | fail
  | cut
  | finish
  | fault

/-- How the program ends from some state: at its end, at the cut of the body it is in, or not at all. -/
inductive Outcome (σ : Type) where
  | finished (s : σ)
  | cut (s : σ)
  | failed
  | fault

/-- What the machine returns. -/
inductive Verdict (σ : Type) where
  | finished (s : σ)
  | failed
  | fault

abbrev Config (σ : Type) := σ × List (Frame σ)

variable {σ : Type} (effect : σ → Effect σ) (keep : σ → σ → σ)

/-- The recursive meaning. `keep saved s` is the state saved by a look ahead with what its body, which
    ended in `s`, leaves behind. -/
inductive Backtracks : σ → Outcome σ → Prop
  | fault {s} : effect s = .fault → Backtracks s .fault
  | finish {s} : effect s = .finish → Backtracks s (.finished s)
  | cut {s} : effect s = .cut → Backtracks s (.cut s)
  | fail {s} : effect s = .fail → Backtracks s .failed
  | next {s s' o} : effect s = .next s' → Backtracks s' o → Backtracks s o
  | first {s saved s' o} : effect s = .push .split saved s' → Backtracks s' o → o ≠ .failed →
      Backtracks s o
  | second {s saved s' o} : effect s = .push .split saved s' → Backtracks s' .failed →
      Backtracks saved o → Backtracks s o
  | ahead {s saved s' t o} : effect s = .push .ahead saved s' → Backtracks s' (.cut t) →
      Backtracks (keep saved t) o → Backtracks s o
  | aheadNot {s saved s' o} : effect s = .push .ahead saved s' → Backtracks s' o →
      (∀ t, o ≠ .cut t) → Backtracks s o
  | notAhead {s saved s' o} : effect s = .push .notAhead saved s' → Backtracks s' .failed →
      Backtracks saved o → Backtracks s o
  | notAheadCut {s saved s' t} : effect s = .push .notAhead saved s' → Backtracks s' (.cut t) →
      Backtracks s .failed
  | notAheadEnds {s saved s' o} : effect s = .push .notAhead saved s' → Backtracks s' o →
      o ≠ .failed → (∀ t, o ≠ .cut t) → Backtracks s o

/-! ## The machine -/

/-- The stack is unwound after a failure. -/
def failBack : List (Frame σ) → Config σ ⊕ Verdict σ
  | [] => .inr .failed
  | ⟨.split, saved⟩ :: frames => .inl (saved, frames)
  | ⟨.ahead, _⟩ :: frames => failBack frames
  | ⟨.notAhead, saved⟩ :: frames => .inl (saved, frames)

/-- The stack is unwound at the end of a body. -/
def cutBack (s : σ) : List (Frame σ) → Config σ ⊕ Verdict σ
  | [] => .inr .failed
  | ⟨.split, _⟩ :: frames => cutBack s frames
  | ⟨.ahead, saved⟩ :: frames => .inl (keep saved s, frames)
  | ⟨.notAhead, _⟩ :: frames => failBack frames

def perform (s : σ) (frames : List (Frame σ)) : Effect σ → Config σ ⊕ Verdict σ
  | .next s' => .inl (s', frames)
  | .push kind saved s' => .inl (s', ⟨kind, saved⟩ :: frames)
  | .fail => failBack frames
  | .cut => cutBack keep s frames
  | .finish => .inr (.finished s)
  | .fault => .inr .fault

def step (config : Config σ) : Config σ ⊕ Verdict σ :=
  perform keep config.1 config.2 (effect config.1)

/-- How the machine goes on when the state on top of the frames has come to an outcome. -/
def resume (frames : List (Frame σ)) : Outcome σ → Config σ ⊕ Verdict σ
  | .finished s => .inr (.finished s)
  | .cut s => cutBack keep s frames
  | .failed => failBack frames
  | .fault => .inr .fault

/-- At most `fuel` more rounds. -/
def proceed (step : Config σ → Config σ ⊕ Verdict σ) (fuel : Nat) :
    Config σ ⊕ Verdict σ → Option (Verdict σ)
  | .inl config => iter step fuel config
  | .inr verdict => some verdict

/-- Where the frame on top does not matter for an outcome. -/
def Passes (kind : FrameKind) : Outcome σ → Prop
  | .finished _ | .fault => True
  | .cut _ => kind = .split
  | .failed => kind = .ahead

theorem resume_of_passes {kind : FrameKind} {saved : σ} {frames : List (Frame σ)} {o : Outcome σ}
    (passes : Passes kind o) : resume keep (⟨kind, saved⟩ :: frames) o = resume keep frames o := by
  cases o with
  | finished s => rfl
  | fault => rfl
  | cut s =>
    cases passes
    rfl
  | failed =>
    cases passes
    rfl

section

variable {effect keep} {machine : Config σ → Config σ ⊕ Verdict σ} {G : List (Frame σ) → Prop}
  {s : σ} {o : Outcome σ} {frames : List (Frame σ)}

theorem iter_of_agrees (agrees : ∀ s frames, G frames → machine (s, frames) = step effect keep (s, frames))
    (good : G frames) (fuel : Nat) :
    iter machine (fuel + 1) (s, frames) = proceed machine fuel (step effect keep (s, frames)) := by
  rw [iter, agrees s frames good]
  rcases step effect keep (s, frames) with next | verdict
  · rfl
  · rfl

theorem step_eq {e : Effect σ} (is : effect s = e) :
    step effect keep (s, frames) = perform keep s frames e := by
  rw [← is]
  rfl

/-- The machine does what the recursive meaning says and then goes on with the frames below. -/
theorem runs_of_backtracks
    (agrees : ∀ s frames, G frames → machine (s, frames) = step effect keep (s, frames))
    (grows : ∀ frame frames, G frames → G (frame :: frames))
    (meaning : Backtracks effect keep s o) :
    ∀ frames, G frames → ∃ n, ∀ fuel,
      iter machine (fuel + n) (s, frames) = proceed machine fuel (resume keep frames o) := by
  -- one round that ends the run of this state
  have ends {s : σ} {o : Outcome σ} {frames : List (Frame σ)} (good : G frames)
      (last : step effect keep (s, frames) = resume keep frames o) :
      ∃ n, ∀ fuel, iter machine (fuel + n) (s, frames) = proceed machine fuel (resume keep frames o) :=
    ⟨1, fun fuel => by rw [iter_of_agrees agrees good, last]⟩
  -- one round that leads to another state, whose run is known
  have goes {s s' : σ} {frames frames' : List (Frame σ)} {next : Config σ ⊕ Verdict σ} (good : G frames)
      (first : step effect keep (s, frames) = .inl (s', frames'))
      (rest : ∃ n, ∀ fuel, iter machine (fuel + n) (s', frames') = proceed machine fuel next) :
      ∃ n, ∀ fuel, iter machine (fuel + n) (s, frames) = proceed machine fuel next := by
    obtain ⟨n, run⟩ := rest
    exact ⟨n + 1, fun fuel => by
      rw [← Nat.add_assoc, iter_of_agrees agrees good, first]
      exact run fuel⟩
  -- two runs, the second from where the first one leads
  have chains {s s' : σ} {frames frames' : List (Frame σ)} {next : Config σ ⊕ Verdict σ}
      (first : ∃ n, ∀ fuel, iter machine (fuel + n) (s, frames) =
        proceed machine fuel (.inl (s', frames')))
      (second : ∃ n, ∀ fuel, iter machine (fuel + n) (s', frames') = proceed machine fuel next) :
      ∃ n, ∀ fuel, iter machine (fuel + n) (s, frames) = proceed machine fuel next := by
    obtain ⟨n, run⟩ := first
    obtain ⟨m, run'⟩ := second
    exact ⟨m + n, fun fuel => by
      rw [← Nat.add_assoc, run (fuel + m)]
      exact run' fuel⟩
  induction meaning with
  | fault is => exact fun frames good => ends good (step_eq is)
  | finish is => exact fun frames good => ends good (step_eq is)
  | cut is => exact fun frames good => ends good (step_eq is)
  | fail is => exact fun frames good => ends good (step_eq is)
  | next is _ ih => exact fun frames good => goes good (step_eq is) (ih frames good)
  | @first s saved s' o is _ notFailed ih =>
    intro frames good
    have passes : Passes .split o := by
      cases o with
      | failed => exact absurd rfl notFailed
      | _ => trivial
    have run := ih (⟨.split, saved⟩ :: frames) (grows _ _ good)
    rw [resume_of_passes keep passes] at run
    exact goes good (step_eq is) run
  | second is _ _ ih ih' =>
    intro frames good
    exact goes good (step_eq is) (chains (ih _ (grows _ _ good)) (ih' frames good))
  | ahead is _ _ ih ih' =>
    intro frames good
    exact goes good (step_eq is) (chains (ih _ (grows _ _ good)) (ih' frames good))
  | @aheadNot s saved s' o is _ notCut ih =>
    intro frames good
    have passes : Passes .ahead o := by
      cases o with
      | cut t => exact absurd rfl (notCut t)
      | _ => trivial
    have run := ih (⟨.ahead, saved⟩ :: frames) (grows _ _ good)
    rw [resume_of_passes keep passes] at run
    exact goes good (step_eq is) run
  | notAhead is _ _ ih ih' =>
    intro frames good
    exact goes good (step_eq is) (chains (ih _ (grows _ _ good)) (ih' frames good))
  | notAheadCut is _ ih =>
    intro frames good
    exact goes good (step_eq is) (ih _ (grows _ _ good))
  | @notAheadEnds s saved s' o is _ notFailed notCut ih =>
    intro frames good
    have passes : Passes .notAhead o := by
      cases o with
      | cut t => exact absurd rfl (notCut t)
      | failed => exact absurd rfl notFailed
      | _ => trivial
    have run := ih (⟨.notAhead, saved⟩ :: frames) (grows _ _ good)
    rw [resume_of_passes keep passes] at run
    exact goes good (step_eq is) run

/-- A run of the machine that returns passes through an outcome of the state on top. -/
theorem backtracks_of_runs
    (agrees : ∀ s frames, G frames → machine (s, frames) = step effect keep (s, frames))
    (grows : ∀ frame frames, G frames → G (frame :: frames)) :
    ∀ (n : Nat) (s : σ) (frames : List (Frame σ)) (v : Verdict σ), G frames →
      iter machine n (s, frames) = some v →
        ∃ o m, m < n ∧ Backtracks effect keep s o ∧ proceed machine m (resume keep frames o) = some v := by
  intro n
  induction n using Nat.strongRecOn with
  | _ n ih =>
    intro s frames v good ran
    cases n with
    | zero => cases ran
    | succ n =>
      rw [iter_of_agrees agrees good] at ran
      cases is : effect s with
      | fault => exact ⟨.fault, n, Nat.lt_succ_self n, .fault is, by rwa [step_eq is] at ran⟩
      | finish => exact ⟨.finished s, n, Nat.lt_succ_self n, .finish is, by rwa [step_eq is] at ran⟩
      | cut => exact ⟨.cut s, n, Nat.lt_succ_self n, .cut is, by rwa [step_eq is] at ran⟩
      | fail => exact ⟨.failed, n, Nat.lt_succ_self n, .fail is, by rwa [step_eq is] at ran⟩
      | next s' =>
        rw [step_eq is] at ran
        obtain ⟨o, m, less, meaning, rest⟩ := ih n (Nat.lt_succ_self n) s' frames v good ran
        exact ⟨o, m, Nat.lt_succ_of_lt less, .next is meaning, rest⟩
      | push kind saved s' =>
        rw [step_eq is] at ran
        obtain ⟨o, m, less, meaning, rest⟩ := ih n (Nat.lt_succ_self n) s' (⟨kind, saved⟩ :: frames) v
          (grows _ _ good) ran
        -- the run goes on from `t` with the frames below, and has an outcome of its own there
        have again (t : σ) (resumed : iter machine m (t, frames) = some v) :
            ∃ o m', m' < n + 1 ∧ Backtracks effect keep t o ∧
              proceed machine m' (resume keep frames o) = some v := by
          obtain ⟨o', m', less', meaning', rest'⟩ := ih m (Nat.lt_succ_of_lt less) t frames v good resumed
          exact ⟨o', m', Nat.lt_trans less' (Nat.lt_succ_of_lt less), meaning', rest'⟩
        cases kind with
        | split =>
          cases o with
          | failed =>
            obtain ⟨o', m', less', meaning', rest'⟩ := again saved rest
            exact ⟨o', m', less', .second is meaning meaning', rest'⟩
          | finished t => exact ⟨_, m, Nat.lt_succ_of_lt less, .first is meaning nofun, rest⟩
          | fault => exact ⟨_, m, Nat.lt_succ_of_lt less, .first is meaning nofun, rest⟩
          | cut t => exact ⟨_, m, Nat.lt_succ_of_lt less, .first is meaning nofun, rest⟩
        | ahead =>
          cases o with
          | cut t =>
            obtain ⟨o', m', less', meaning', rest'⟩ := again (keep saved t) rest
            exact ⟨o', m', less', .ahead is meaning meaning', rest'⟩
          | finished t => exact ⟨_, m, Nat.lt_succ_of_lt less, .aheadNot is meaning nofun, rest⟩
          | fault => exact ⟨_, m, Nat.lt_succ_of_lt less, .aheadNot is meaning nofun, rest⟩
          | failed => exact ⟨_, m, Nat.lt_succ_of_lt less, .aheadNot is meaning nofun, rest⟩
        | notAhead =>
          cases o with
          | failed =>
            obtain ⟨o', m', less', meaning', rest'⟩ := again saved rest
            exact ⟨o', m', less', .notAhead is meaning meaning', rest'⟩
          | cut t => exact ⟨.failed, m, Nat.lt_succ_of_lt less, .notAheadCut is meaning, rest⟩
          | finished t =>
            exact ⟨_, m, Nat.lt_succ_of_lt less, .notAheadEnds is meaning nofun nofun, rest⟩
          | fault => exact ⟨_, m, Nat.lt_succ_of_lt less, .notAheadEnds is meaning nofun nofun, rest⟩

end

/-! ## Lines -/

/-- Every state that an effect leads to or saves has a property. -/
def Effect.All (P : σ → Prop) : Effect σ → Prop
  | .next s' => P s'
  | .push _ saved s' => P saved ∧ P s'
  | _ => True

/-- One line of attempts, over states whose next step is `allowed`: where an alternative has failed it goes
    on from the state that was saved, as if the alternative had not been tried. -/
inductive Line (allowed : σ → Prop) : σ → σ → Prop
  | refl {s} : Line allowed s s
  | next {s t t'} : Line allowed s t → allowed t → effect t = .next t' → Line allowed s t'
  | first {s t t' saved kind} : Line allowed s t → allowed t → effect t = .push kind saved t' →
      Line allowed s t'
  | second {s t t' saved kind} : Line allowed s t → allowed t → effect t = .push kind saved t' →
      Line allowed s saved
  | ahead {s t t' u saved} : Line allowed s t → allowed t → effect t = .push .ahead saved t' →
      Line allowed t' u → allowed u → effect u = .cut → Line allowed s (keep saved u)

section

variable {effect keep} {allowed : σ → Prop} {s t u : σ}

/-- What every allowed step preserves, and a look ahead takes over from the end of its body, holds all along
    a line. -/
theorem Line.invariant {P : σ → Prop} (step : ∀ s, allowed s → P s → (effect s).All P)
    (keeps : ∀ saved s, P s → P (keep saved s)) (line : Line effect keep allowed s t) (holds : P s) : P t := by
  induction line with
  | refl => exact holds
  | next _ ok is ih =>
    have all := step _ ok (ih holds)
    rw [is] at all
    exact all
  | first _ ok is ih =>
    have all := step _ ok (ih holds)
    rw [is] at all
    exact all.2
  | second _ ok is ih =>
    have all := step _ ok (ih holds)
    rw [is] at all
    exact all.1
  | ahead _ ok is _ _ _ ih ih' =>
    have all := step _ ok (ih holds)
    rw [is] at all
    exact keeps _ _ (ih' all.2)

end

end Backtracking

end ArkRuntime
