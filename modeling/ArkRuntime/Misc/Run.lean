import Mathlib.Data.List.Basic

/-!
# Runs of operations

A container is driven by a list of operations. `run step s ops` performs them one after the other
and is `none` when one of them does not return. `Allowed step ok s ops` says that each operation of
the run meets the condition `ok` in the state it starts from. The rule `run_refines` carries a
relation to an abstract state through a whole run.
-/

namespace ArkRuntime

variable {σ τ op : Type*}

def run (step : σ → op → Option σ) (s : σ) (ops : List op) : Option σ := ops.foldlM step s

/-- Every operation of the run meets `ok` where it is performed. -/
def Allowed (step : σ → op → Option σ) (ok : σ → op → Prop) : σ → List op → Prop
  | _, [] => True
  | s, o :: ops => ok s o ∧ ∀ s', step s o = some s' → Allowed step ok s' ops

instance decidableAllowed (step : σ → op → Option σ) (ok : σ → op → Prop)
    [dec : ∀ s o, Decidable (ok s o)] : ∀ s ops, Decidable (Allowed step ok s ops)
  | _, [] => isTrue trivial
  | s, o :: ops =>
      match h : step s o with
      | none => decidable_of_iff (ok s o) (by simp [Allowed, h])
      | some s' =>
          have := decidableAllowed step ok s' ops
          decidable_of_iff (ok s o ∧ Allowed step ok s' ops) (by simp [Allowed, h])

theorem Allowed.and_forall {step : σ → op → Option σ} {ok : σ → op → Prop} {P : op → Prop}
    {ops : List op} {s : σ} (allowed : Allowed step ok s ops) (all : ∀ o ∈ ops, P o) :
    Allowed step (fun s o => P o ∧ ok s o) s ops := by
  induction ops generalizing s with
  | nil => trivial
  | cons o ops ih =>
    refine ⟨⟨all o List.mem_cons_self, allowed.1⟩, fun s' next => ?_⟩
    exact ih (allowed.2 s' next) fun o' ho' => all o' (List.mem_cons_of_mem _ ho')

theorem allowed_of_forall {step : σ → op → Option σ} {P : op → Prop} {ops : List op} {s : σ}
    (all : ∀ o ∈ ops, P o) : Allowed step (fun _ o => P o) s ops := by
  induction ops generalizing s with
  | nil => trivial
  | cons o ops ih =>
    refine ⟨all o List.mem_cons_self, fun s' _ => ?_⟩
    exact ih fun o' ho' => all o' (List.mem_cons_of_mem _ ho')

/-- The rule for runs: each allowed operation returns and keeps the relation to the abstract
    state, so a whole run does. -/
theorem run_refines {step : σ → op → Option σ} {ok : σ → op → Prop} {f : τ → op → τ}
    {R : σ → τ → Prop}
    (preserve : ∀ s a o, R s a → ok s o → ∃ s', step s o = some s' ∧ R s' (f a o)) :
    ∀ (ops : List op) (s : σ) (a : τ), R s a → Allowed step ok s ops →
      ∃ s', run step s ops = some s' ∧ R s' (ops.foldl f a) := by
  intro ops
  induction ops with
  | nil => intro s a rel _; exact ⟨s, rfl, rel⟩
  | cons o ops ih =>
    intro s a rel allowed
    obtain ⟨s1, first, rel1⟩ := preserve s a o rel allowed.1
    obtain ⟨s', rest, rel'⟩ := ih s1 (f a o) rel1 (allowed.2 s1 first)
    refine ⟨s', ?_, rel'⟩
    rw [run, List.foldlM_cons, first]
    exact rest

/-- The rule for an invariant of the states of a run. -/
theorem run_invariant {step : σ → op → Option σ} {ok : σ → op → Prop} {I : σ → Prop}
    (preserve : ∀ s o, I s → ok s o → ∃ s', step s o = some s' ∧ I s') (ops : List op) (s : σ)
    (start : I s) (allowed : Allowed step ok s ops) :
    ∃ s', run step s ops = some s' ∧ I s' :=
  run_refines (f := fun _ _ => ()) (R := fun s _ => I s) (fun s _ o inv h => preserve s o inv h)
    ops s () start allowed

/-- The rule for the states of a run: `R` is kept by the operations that meet `ok`, and the others break
    `P`. Then `P` holds of every state exactly if all operations meet `ok`. -/
theorem allowed_iff_prefixes {step : σ → op → Option σ} {ok : σ → op → Prop} {V : op → Prop}
    {R P : List op → σ → Prop} (holds : ∀ past s, R past s → P past s)
    (preserve : ∀ past s o, V o → R past s → ok s o → ∃ s', step s o = some s' ∧ R (past ++ [o]) s')
    (breaks : ∀ past s o s', V o → R past s → ¬ ok s o → step s o = some s' → ¬ P (past ++ [o]) s')
    (ops past : List op) (s : σ) (valid : ∀ o ∈ ops, V o) (start : R past s) :
    Allowed step ok s ops ↔
      ∀ done rest, ops = done ++ rest → ∃ s', run step s done = some s' ∧ P (past ++ done) s' := by
  induction ops generalizing past s with
  | nil =>
    refine ⟨fun _ done rest parts => ?_, fun _ => trivial⟩
    obtain ⟨rfl, -⟩ := List.append_eq_nil_iff.mp parts.symm
    exact ⟨s, rfl, by simpa using holds past s start⟩
  | cons o ops ih =>
    have valid' : ∀ o' ∈ ops, V o' := fun o' mem => valid o' (List.mem_cons_of_mem _ mem)
    have validO : V o := valid o List.mem_cons_self
    have later (s1 : σ) (first : step s o = some s1) (done : List op) :
        run step s (o :: done) = run step s1 done := by
      rw [run, List.foldlM_cons, first]
      rfl
    constructor
    · intro allowed done rest parts
      obtain ⟨s1, first, next⟩ := preserve past s o validO start allowed.1
      cases done with
      | nil => exact ⟨s, rfl, by simpa using holds past s start⟩
      | cons o' done =>
        obtain ⟨rfl, tail⟩ := List.cons.inj parts
        rw [later s1 first, List.append_cons]
        exact (ih (past ++ [o]) s1 valid' next).mp (allowed.2 s1 first) done rest tail
    · intro all
      have meets : ok s o := by
        by_contra misses
        obtain ⟨s1, first, good⟩ := all [o] ops rfl
        obtain ⟨s2, step1, same⟩ := Option.bind_eq_some_iff.mp first
        cases same
        exact breaks past s o s1 validO start misses step1 good
      refine ⟨meets, fun s1 first => ?_⟩
      obtain ⟨s2, first', next⟩ := preserve past s o validO start meets
      obtain rfl : s1 = s2 := Option.some.inj (first.symm.trans first')
      refine (ih (past ++ [o]) s1 valid' next).mpr fun done rest parts => ?_
      rw [← later s1 first, ← List.append_cons]
      exact all (o :: done) rest (by rw [parts]; rfl)

/-- The operations of a run in which each gives an answer. -/
def trace (step : σ → op → Option (σ × τ)) : σ → List op → Option (σ × List τ)
  | s, [] => some (s, [])
  | s, o :: ops =>
      (step s o).bind fun r => (trace step r.1 ops).map fun rest => (rest.1, r.2 :: rest.2)

/-- Each operation of the run answers as `Q` says, where `Q` sees the operations before it. -/
def Answers (Q : List op → op → τ → Prop) (past ops : List op) (rs : List τ) : Prop :=
  rs.length = ops.length ∧
    ∀ i o, ops[i]? = some o → ∃ r, rs[i]? = some r ∧ Q (past ++ ops.take i) o r

theorem answers_nil {Q : List op → op → τ → Prop} {past : List op} : Answers Q past [] [] :=
  ⟨rfl, by simp⟩

theorem answers_cons {Q : List op → op → τ → Prop} {past ops : List op} {o : op} {r : τ} {rs : List τ}
    (first : Q past o r) (rest : Answers Q (past ++ [o]) ops rs) :
    Answers Q past (o :: ops) (r :: rs) := by
  obtain ⟨length, answers⟩ := rest
  refine ⟨by simpa using length, fun i o' here => ?_⟩
  cases i with
  | zero =>
    rw [List.getElem?_cons_zero, Option.some.injEq] at here
    subst here
    exact ⟨r, rfl, by simpa using first⟩
  | succ i =>
    rw [List.getElem?_cons_succ] at here
    obtain ⟨r', there, answer'⟩ := answers i o' here
    exact ⟨r', there, by simpa using answer'⟩

theorem trace_cons {step : σ → op → Option (σ × τ)} {s s1 s' : σ} {o : op} {r : τ} {ops : List op}
    {rs : List τ} (first : step s o = some (s1, r)) (rest : trace step s1 ops = some (s', rs)) :
    trace step s (o :: ops) = some (s', r :: rs) := by
  rw [trace, first, Option.bind_some, rest]
  rfl

/-- The rule for the states that runs reach. -/
theorem trace_reaches {step : σ → op → Option (σ × τ)} {R : List op → σ → Prop}
    (preserve : ∀ past s o s' r, R past s → step s o = some (s', r) → R (past ++ [o]) s') :
    ∀ (ops past : List op) (s s' : σ) (rs : List τ), R past s → trace step s ops = some (s', rs) →
      R (past ++ ops) s' := by
  intro ops
  induction ops with
  | nil =>
    intro past s s' rs rel run
    cases run
    simpa using rel
  | cons o ops ih =>
    intro past s s' rs rel run
    rw [trace, Option.bind_eq_some_iff] at run
    obtain ⟨⟨s1, r⟩, first, next⟩ := run
    obtain ⟨⟨s2, rs2⟩, rest, same⟩ := Option.map_eq_some_iff.mp next
    cases same
    simpa using ih (past ++ [o]) s1 s2 rs2 (preserve past s o s1 r rel first) rest

/-- The rule for answers: `R` relates the state to the operations performed so far, and each
    operation that meets `P` answers as `Q` says, or does not return, for a reason `F`. A run is then
    answered to its end or up to such an operation. -/
theorem trace_or_stuck_after {step : σ → op → Option (σ × τ)} {P : List op → op → Prop}
    {R : List op → σ → Prop} {Q : List op → op → τ → Prop} {F : σ → op → Prop}
    (preserve : ∀ past s o, R past s → P past o →
      (∃ s' r, step s o = some (s', r) ∧ R (past ++ [o]) s' ∧ Q past o r) ∨
        (step s o = none ∧ F s o)) :
    ∀ (ops past : List op) (s : σ), R past s →
      (∀ done o rest, ops = done ++ o :: rest → P (past ++ done) o) →
      (∃ s' rs, trace step s ops = some (s', rs) ∧ R (past ++ ops) s' ∧ Answers Q past ops rs) ∨
        ∃ done o rest s' rs, ops = done ++ o :: rest ∧ trace step s done = some (s', rs) ∧
          R (past ++ done) s' ∧ Answers Q past done rs ∧ step s' o = none ∧ F s' o := by
  intro ops
  induction ops with
  | nil => intro past s rel _; exact .inl ⟨s, [], rfl, by simpa using rel, answers_nil⟩
  | cons o ops ih =>
    intro past s rel all
    rcases preserve past s o rel (by simpa using all [] o ops rfl) with
      ⟨s1, r, first, rel1, answer⟩ | ⟨stuck, reason⟩
    · have later : ∀ done o' rest, ops = done ++ o' :: rest → P (past ++ [o] ++ done) o' := by
        intro done o' rest split
        rw [List.append_assoc]
        exact all (o :: done) o' rest (by rw [split]; rfl)
      rcases ih (past ++ [o]) s1 rel1 later with
        ⟨s', rs, rest, rel', answers⟩ | ⟨done, o', rest, s', rs, rfl, run, rel', answers, stuck⟩
      · exact .inl ⟨s', r :: rs, trace_cons first rest, by simpa using rel', answers_cons answer answers⟩
      · exact .inr ⟨o :: done, o', rest, s', r :: rs, rfl, trace_cons first run, by simpa using rel',
          answers_cons answer answers, stuck⟩
    · exact .inr ⟨[], o, ops, s, [], rfl, rfl, by simpa using rel, answers_nil, stuck, reason⟩

/-- The rule when `P` does not look at the operations before. -/
theorem trace_or_stuck {step : σ → op → Option (σ × τ)} {P : op → Prop} {R : List op → σ → Prop}
    {Q : List op → op → τ → Prop} {F : σ → op → Prop}
    (preserve : ∀ past s o, R past s → P o →
      (∃ s' r, step s o = some (s', r) ∧ R (past ++ [o]) s' ∧ Q past o r) ∨
        (step s o = none ∧ F s o))
    (ops past : List op) (s : σ) (rel : R past s) (all : ∀ o ∈ ops, P o) :
    (∃ s' rs, trace step s ops = some (s', rs) ∧ R (past ++ ops) s' ∧ Answers Q past ops rs) ∨
      ∃ done o rest s' rs, ops = done ++ o :: rest ∧ trace step s done = some (s', rs) ∧
        R (past ++ done) s' ∧ Answers Q past done rs ∧ step s' o = none ∧ F s' o := by
  apply trace_or_stuck_after (P := fun _ o => P o) preserve ops past s rel
  intro done o rest split
  exact all o (by rw [split]; exact List.mem_append_right _ List.mem_cons_self)

/-- The rule for answers of operations that always return. -/
theorem trace_spec {step : σ → op → Option (σ × τ)} {P : op → Prop} {R : List op → σ → Prop}
    {Q : List op → op → τ → Prop}
    (preserve : ∀ past s o, R past s → P o → ∃ s' r, step s o = some (s', r) ∧ R (past ++ [o]) s' ∧
      Q past o r)
    (ops past : List op) (s : σ) (rel : R past s) (all : ∀ o ∈ ops, P o) :
    ∃ s' rs, trace step s ops = some (s', rs) ∧ R (past ++ ops) s' ∧ Answers Q past ops rs := by
  rcases trace_or_stuck (F := fun _ _ => False) (fun past s o rel ok => .inl (preserve past s o rel ok))
    ops past s rel all with answered | ⟨_, _, _, _, _, _, _, _, _, _, no⟩
  · exact answered
  · exact no.elim

end ArkRuntime
