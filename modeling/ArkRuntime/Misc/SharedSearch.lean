import Mathlib.Data.Set.Subsingleton

/-!
# Depth-first search with one list of visited nodes

A search through a graph that enters each node at most once, whatever branch it comes from, and that joins
what the branches find: nothing, one value, or several. A branch that is cut off because its node has been
visited finds nothing, and still the search finds several values if and only if several can be reached: the
nodes that it has visited are closed under the edges as long as it has not stopped early (`Explored`).
-/

namespace ArkRuntime

/-- What a branch of a search has found. -/
inductive Finding (β : Type*) where
  | nothing
  | one (b : β)
  | several
deriving DecidableEq, Repr

namespace Finding

variable {β : Type*} [DecidableEq β]

def join : Finding β → Finding β → Finding β
  | nothing, o => o
  | o, nothing => o
  | one b, one b' => if b = b' then one b else several
  | _, _ => several

@[simp] theorem join_nothing (o : Finding β) : o.join nothing = o := by
  cases o <;> rfl

@[simp] theorem join_several (o : Finding β) : o.join several = several := by
  cases o <;> rfl

end Finding

section Search

variable {ν β : Type*} (children : ν → List ν) (value : ν → Option β)

/-- A node that can be reached from another one. -/
def Reach : ν → ν → Prop := Relation.ReflTransGen fun v w => w ∈ children v

/-- A search from the nodes `starts` that has changed the list of visited nodes from `visited` to
    `visited'`. -/
structure Explored (visited visited' starts : List ν) (out : Finding β) : Prop where
  grows : visited ⊆ visited'
  reached : ∀ v ∈ visited', v ∉ visited → ∃ s ∈ starts, Reach children s v
  started : out ≠ .several → starts ⊆ visited'
  closed : out ≠ .several → ∀ v ∈ visited', v ∉ visited → children v ⊆ visited'
  valueless : out = .nothing → ∀ v ∈ visited', v ∉ visited → value v = none
  found : ∀ b, out = .one b → (∃ v ∈ visited', v ∉ visited ∧ value v = some b) ∧
    ∀ v ∈ visited', v ∉ visited → ∀ b', value v = some b' → b' = b
  different : out = .several → ∃ v ∈ visited', v ∉ visited ∧ ∃ w ∈ visited', w ∉ visited ∧
    ∃ b b', value v = some b ∧ value w = some b' ∧ b ≠ b'

variable {children value} {visited visited' visited'' starts : List ν} {out out' : Finding β} {v : ν}

namespace Explored

/-- A node that has been visited before is cut off. -/
theorem again (inside : v ∈ visited) : Explored children value visited visited [v] .nothing where
  grows := List.Subset.refl _
  reached w here gone := absurd here gone
  started _ := by simpa using inside
  closed _ w here gone := absurd here gone
  valueless _ w here gone := absurd here gone
  found _ impossible := by cases impossible
  different impossible := by cases impossible

theorem none : Explored children value visited visited [] .nothing where
  grows := List.Subset.refl _
  reached w here gone := absurd here gone
  started _ := List.nil_subset _
  closed _ w here gone := absurd here gone
  valueless _ w here gone := absurd here gone
  found _ impossible := by cases impossible
  different impossible := by cases impossible

/-- What is visited with a node is the node and what is visited behind it. -/
theorem fresh_or_new {w : ν} (here : w ∈ visited') (old : w ∉ visited) :
    w = v ∨ w ∈ visited' ∧ w ∉ visited ++ [v] := by
  by_cases same : w = v
  · exact .inl same
  · exact .inr ⟨here, by simp [old, same]⟩

/-- A node with a value has no edges. -/
theorem leaf {b : β} (fresh : v ∉ visited) (is : value v = some b) (last : children v = []) :
    Explored children value visited (visited ++ [v]) [v] (.one b) where
  grows := List.subset_append_left _ _
  reached w here old := by
    rcases List.mem_append.mp here with here | here
    · exact absurd here old
    · rw [List.mem_singleton.mp here]
      exact ⟨v, List.mem_singleton_self v, .refl⟩
  started _ := List.subset_append_right _ _
  closed _ w here old := by
    rcases List.mem_append.mp here with here | here
    · exact absurd here old
    · rw [List.mem_singleton.mp here, last]
      exact List.nil_subset _
  valueless impossible := by cases impossible
  found b' same := by
    cases same
    refine ⟨⟨v, by simp, fresh, is⟩, ?_⟩
    intro w here old b' is'
    rcases List.mem_append.mp here with here | here
    · exact absurd here old
    · rw [List.mem_singleton.mp here, is] at is'
      exact (Option.some.inj is').symm
  different impossible := by cases impossible

/-- A node without a value is left through its edges. -/
theorem inner (fresh : v ∉ visited) (is : value v = .none)
    (behind : Explored children value (visited ++ [v]) visited' (children v) out) :
    Explored children value visited visited' [v] out where
  grows := List.Subset.trans (List.subset_append_left _ _) behind.grows
  reached w here old := by
    refine ⟨v, List.mem_singleton_self v, ?_⟩
    rcases fresh_or_new here old with same | ⟨here, new⟩
    · rw [same]
      exact .refl
    · obtain ⟨s, edge, reach⟩ := behind.reached w here new
      exact .head edge reach
  started finished := by
    intro w here
    rw [List.mem_singleton.mp here]
    exact behind.grows (by simp)
  closed finished w here old := by
    rcases fresh_or_new here old with same | ⟨here, new⟩
    · rw [same]
      exact behind.started finished
    · exact behind.closed finished w here new
  valueless nothing w here old := by
    rcases fresh_or_new here old with same | ⟨here, new⟩
    · rw [same]
      exact is
    · exact behind.valueless nothing w here new
  found b one := by
    obtain ⟨⟨w, here, new, holds⟩, only⟩ := behind.found b one
    refine ⟨⟨w, here, fun old => new (List.mem_append_left _ old), holds⟩, ?_⟩
    intro w' here' old' b' holds'
    rcases fresh_or_new here' old' with same | ⟨here', new'⟩
    · rw [same, is] at holds'
      cases holds'
    · exact only w' here' new' b' holds'
  different several := by
    obtain ⟨w, here, new, w', here', new', values⟩ := behind.different several
    exact ⟨w, here, fun old => new (List.mem_append_left _ old), w', here',
      fun old => new' (List.mem_append_left _ old), values⟩

/-- A search that has found several values stops. -/
theorem stop {starts' : List ν} (before : Explored children value visited visited' starts .several)
    (sub : starts ⊆ starts') : Explored children value visited visited' starts' .several where
  grows := before.grows
  reached w here old := by
    obtain ⟨s, inside, reach⟩ := before.reached w here old
    exact ⟨s, sub inside, reach⟩
  started impossible := absurd rfl impossible
  closed impossible := absurd rfl impossible
  valueless impossible := by cases impossible
  found _ impossible := by cases impossible
  different _ := before.different rfl

/-- One more node is searched. -/
theorem next [DecidableEq β] (before : Explored children value visited visited' starts out)
    (unfinished : out ≠ .several) (search : Explored children value visited' visited'' [v] out') :
    Explored children value visited visited'' (starts ++ [v]) (out.join out') := by
  have split {w : ν} (here : w ∈ visited'') (old : w ∉ visited) :
      w ∈ visited' ∧ w ∉ visited ∨ w ∈ visited'' ∧ w ∉ visited' := by
    by_cases early : w ∈ visited'
    · exact .inl ⟨early, old⟩
    · exact .inr ⟨here, early⟩
  have finished (done : out.join out' ≠ .several) : out' ≠ .several := by
    rintro rfl
    exact done (Finding.join_several out)
  have late {w : ν} (new : w ∉ visited') : w ∉ visited := fun old => new (before.grows old)
  refine ⟨List.Subset.trans before.grows search.grows, ?_, ?_, ?_, ?_, ?_, ?_⟩
  · intro w here old
    rcases split here old with ⟨here, old⟩ | ⟨here, new⟩
    · obtain ⟨s, inside, reach⟩ := before.reached w here old
      exact ⟨s, List.mem_append_left _ inside, reach⟩
    · obtain ⟨s, inside, reach⟩ := search.reached w here new
      exact ⟨s, List.mem_append_right _ inside, reach⟩
  · intro done
    exact List.append_subset.mpr ⟨List.Subset.trans (before.started unfinished) search.grows,
      search.started (finished done)⟩
  · intro done w here old
    rcases split here old with ⟨here, old⟩ | ⟨here, new⟩
    · exact List.Subset.trans (before.closed unfinished w here old) search.grows
    · exact search.closed (finished done) w here new
  · intro nothing w here old
    cases out with
    | nothing =>
      rcases split here old with ⟨here, old⟩ | ⟨here, new⟩
      · exact before.valueless rfl w here old
      · exact search.valueless nothing w here new
    | one b =>
      cases out' with
      | nothing => cases nothing
      | one b' =>
        rw [Finding.join] at nothing
        split_ifs at nothing
      | several => cases nothing
    | several => exact absurd rfl unfinished
  · intro b one
    cases out with
    | nothing =>
      obtain ⟨⟨w, here, new, holds⟩, only⟩ := search.found b one
      refine ⟨⟨w, here, late new, holds⟩, ?_⟩
      intro w' here' old' b' holds'
      rcases split here' old' with ⟨here', old'⟩ | ⟨here', new'⟩
      · rw [before.valueless rfl w' here' old'] at holds'
        cases holds'
      · exact only w' here' new' b' holds'
    | one b1 =>
      obtain ⟨⟨w, here, old, holds⟩, only⟩ := before.found b1 rfl
      have both : b1 = b ∧ ∀ w ∈ visited'', w ∉ visited' → ∀ b', value w = some b' → b' = b := by
        cases out' with
        | nothing =>
          cases one
          refine ⟨rfl, ?_⟩
          intro w' here' new' b' holds'
          rw [search.valueless rfl w' here' new'] at holds'
          cases holds'
        | one b2 =>
          rw [Finding.join] at one
          split_ifs at one with same
          cases one
          subst same
          exact ⟨rfl, (search.found _ rfl).2⟩
        | several => cases one
      obtain ⟨rfl, later⟩ := both
      refine ⟨⟨w, search.grows here, old, holds⟩, ?_⟩
      intro w' here' old' b' holds'
      rcases split here' old' with ⟨here', old'⟩ | ⟨here', new'⟩
      · exact only w' here' old' b' holds'
      · exact later w' here' new' b' holds'
    | several => exact absurd rfl unfinished
  · intro several
    have found : out' = .several ∨ ∃ b b', out = .one b ∧ out' = .one b' ∧ b ≠ b' := by
      cases out with
      | nothing => exact .inl several
      | one b =>
        cases out' with
        | nothing => cases several
        | one b' =>
          rw [Finding.join] at several
          split_ifs at several with same
          exact .inr ⟨b, b', rfl, rfl, same⟩
        | several => exact .inl rfl
      | several => exact absurd rfl unfinished
    rcases found with rfl | ⟨b, b', rfl, rfl, other⟩
    · obtain ⟨w, here, new, w', here', new', values⟩ := search.different rfl
      exact ⟨w, here, late new, w', here', late new', values⟩
    · obtain ⟨⟨w, here, old, holds⟩, -⟩ := before.found b rfl
      obtain ⟨⟨w', here', new', holds'⟩, -⟩ := search.found b' rfl
      exact ⟨w, search.grows here, old, w', here', late new', b, b', holds, holds', other⟩

end Explored

/-- The values that can be reached from a node. -/
def reachable (children : ν → List ν) (value : ν → Option β) (root : ν) : Set β :=
  {b | ∃ v, Reach children root v ∧ value v = some b}

/-- An outcome that says how many values a set has. -/
def Finding.Counts (values : Set β) : Finding β → Prop
  | .nothing => values = ∅
  | .one b => values = {b}
  | .several => values.Nontrivial

/-- The visited nodes are closed under the edges, so that they are all nodes that can be reached. -/
theorem Explored.visits {root : ν} (search : Explored children value [] visited [root] out)
    (finished : out ≠ .several) {w : ν} (reach : Reach children root w) : w ∈ visited := by
  induction reach with
  | refl => exact search.started finished (List.mem_singleton_self root)
  | tail _ edge ih => exact search.closed finished _ ih (List.not_mem_nil) edge

/-- A search that begins with no visited nodes counts the values that can be reached. -/
theorem Explored.counts {root : ν} (search : Explored children value [] visited [root] out) :
    out.Counts (reachable children value root) := by
  have reached {w : ν} (here : w ∈ visited) : Reach children root w := by
    obtain ⟨s, same, reach⟩ := search.reached w here List.not_mem_nil
    rw [List.mem_singleton.mp same] at reach
    exact reach
  cases out with
  | nothing =>
    refine Set.eq_empty_of_forall_notMem ?_
    rintro b ⟨w, reach, holds⟩
    rw [search.valueless rfl w (search.visits nofun reach) List.not_mem_nil] at holds
    cases holds
  | one b =>
    obtain ⟨⟨w, here, -, holds⟩, only⟩ := search.found b rfl
    refine Set.eq_singleton_iff_unique_mem.mpr ⟨⟨w, reached here, holds⟩, ?_⟩
    rintro b' ⟨w', reach', holds'⟩
    exact only w' (search.visits nofun reach') List.not_mem_nil b' holds'
  | several =>
    obtain ⟨w, here, -, w', here', -, b, b', holds, holds', other⟩ := search.different rfl
    exact ⟨b, ⟨w, reached here, holds⟩, b', ⟨w', reached here', holds'⟩, other⟩

end Search

section Counts

variable {β : Type*} {values : Set β} {out : Finding β}

theorem Finding.Counts.nothing_iff (counts : out.Counts values) : out = .nothing ↔ values = ∅ := by
  constructor
  · rintro rfl
    exact counts
  · rintro rfl
    cases out with
    | nothing => rfl
    | one b => exact absurd counts.symm (Set.singleton_ne_empty b)
    | several => exact absurd counts.nonempty Set.not_nonempty_empty

theorem Finding.Counts.one_iff (counts : out.Counts values) (b : β) : out = .one b ↔ values = {b} := by
  constructor
  · rintro rfl
    exact counts
  · rintro rfl
    cases out with
    | nothing => exact absurd counts (Set.singleton_ne_empty b)
    | one b' => rw [Set.singleton_injective counts]
    | several => exact absurd counts Set.not_nontrivial_singleton

theorem Finding.Counts.several_iff (counts : out.Counts values) : out = .several ↔ values.Nontrivial := by
  constructor
  · rintro rfl
    exact counts
  · intro different
    cases out with
    | nothing =>
      rw [show values = ∅ from counts] at different
      exact absurd different.nonempty Set.not_nonempty_empty
    | one b =>
      rw [show values = {b} from counts] at different
      exact absurd different Set.not_nontrivial_singleton
    | several => rfl

/-- A set has one number of values only. -/
theorem Finding.Counts.unique {out' : Finding β} (counts : out.Counts values) (counts' : out'.Counts values) :
    out = out' := by
  cases out' with
  | nothing => exact counts.nothing_iff.mpr counts'
  | one b => exact (counts.one_iff b).mpr counts'
  | several => exact counts.several_iff.mpr counts'

end Counts

end ArkRuntime
