import ArkRuntime.Misc.SharedSearch
import Mathlib.Data.Finset.Prod
import Mathlib.Data.Fintype.Basic

/-!
# Resolving exports of source text modules

`SourceTextModule::ResolveExport` (`ecmascript/module/js_module_source_text.cpp`) with the functions that it
calls. The modules, their names and the requests between them are of arbitrary types, and
`HostResolveImportedModule` is a function that does not fail. Failures are reported, and all modules are
source text modules with one bytecode version.

All branches of a resolution share one list of requests that have been made, and a request that is made
again is answered with null. The search is the one of `Misc.SharedSearch`: it ends with null, a binding or
"ambiguous" as no, one or several local bindings can be reached.
-/

namespace ArkRuntime

namespace Module

structure LocalExportEntry (ν : Type) where
  exportName : ν
  localIndex : Nat
  localName : ν
deriving DecidableEq, Repr

structure IndirectExportEntry (ν ρ : Type) where
  exportName : ν
  moduleRequest : ρ
  importName : ν
deriving DecidableEq, Repr

structure StarExportEntry (ρ : Type) where
  moduleRequest : ρ
deriving DecidableEq, Repr

/-- The fields of a module that exports are resolved with; `none` is undefined. -/
structure SourceTextModule (ν ρ : Type) where
  localExportEntries : Option (List (LocalExportEntry ν))
  indirectExportEntries : Option (List (IndirectExportEntry ν ρ))
  starExportEntries : Option (List (StarExportEntry ρ))
deriving DecidableEq, Repr

structure ModuleGraph (μ ν ρ : Type) where
  module : μ → SourceTextModule ν ρ
  hostResolveImportedModule : μ → ρ → μ
  isNewBcVersion : Bool
  /-- The name `default`. -/
  defaultString : ν

/-- `ResolvedBinding` and `ResolvedIndexBinding`. -/
inductive ResolvedBinding (μ ν : Type) where
  | name (module : μ) (bindingName : ν)
  | index (module : μ) (index : Nat)
deriving DecidableEq, Repr

inductive Resolution (μ ν : Type) where
  | null
  | binding (b : ResolvedBinding μ ν)
  | ambiguous
deriving DecidableEq, Repr

variable {μ ν ρ : Type} [DecidableEq μ] [DecidableEq ν]

/-- The test for two bindings in `GetStarResolution`. -/
def sameBinding : ResolvedBinding μ ν → ResolvedBinding μ ν → Bool
  | .name module bindingName, .name module' bindingName' => module = module' && bindingName = bindingName'
  | .index module index, .index module' index' => module = module' && index = index'
  -- bindings of two bytecode versions
  | _, _ => false

namespace ModuleGraph

variable (g : ModuleGraph μ ν ρ)

/-- `CheckCircularImport`. -/
def checkCircularImport (module : μ) (exportName : ν) (resolveVector : List (μ × ν)) : Bool :=
  resolveVector.any fun rr => rr.1 = module && rr.2 = exportName

/-- `ResolveLocalExport`; `none` is undefined. -/
def resolveLocalExport (exportEntry : List (LocalExportEntry ν)) (exportName : ν) (module : μ) :
    Option (ResolvedBinding μ ν) :=
  match exportEntry.find? (·.exportName = exportName) with
  | some ee =>
      if g.isNewBcVersion then some (.index module ee.localIndex) else some (.name module ee.localName)
  | none => none

/-- A call of `ResolveExport`: the resolution and the requests that have been made. -/
abbrev Resolve (μ ν : Type) := μ → ν → List (μ × ν) → Option (Resolution μ ν × List (μ × ν))

/-- `GetStarResolution`: its result, `starResolution` and the requests. -/
def getStarResolution (resolveExport : Resolve μ ν) (exportName : ν) (moduleRequest : ρ) (module : μ)
    (starResolution : Resolution μ ν) (resolveVector : List (μ × ν)) :
    Option (Resolution μ ν × Resolution μ ν × List (μ × ν)) := do
  let importedModule := g.hostResolveImportedModule module moduleRequest
  let (resolution, resolveVector) ← resolveExport importedModule exportName resolveVector
  match resolution with
  | .ambiguous => return (.ambiguous, starResolution, resolveVector)
  | .null => return (.null, starResolution, resolveVector)
  | .binding b =>
      match starResolution with
      | .binding b' =>
          if sameBinding b b' then return (.binding b, starResolution, resolveVector)
          else return (.ambiguous, starResolution, resolveVector)
      | _ => return (.binding b, .binding b, resolveVector)

/-- The loop over the star export entries in `ResolveExport`. -/
def resolveStarExports (resolveExport : Resolve μ ν) (exportName : ν) (module : μ) :
    List (StarExportEntry ρ) → Resolution μ ν → List (μ × ν) → Option (Resolution μ ν × List (μ × ν))
  | [], starResolution, resolveVector => some (starResolution, resolveVector)
  | ee :: starExportEntries, starResolution, resolveVector => do
      let (result, starResolution, resolveVector) ←
        g.getStarResolution resolveExport exportName ee.moduleRequest module starResolution resolveVector
      if result = .ambiguous then return (result, resolveVector)
      else resolveStarExports resolveExport exportName module starExportEntries starResolution resolveVector

/-- `ResolveExport`; the first argument bounds the depth of the calls. -/
def resolveExport : Nat → Resolve μ ν
  | 0, _, _, _ => none
  | fuel + 1, module, exportName, resolveVector =>
      if checkCircularImport module exportName resolveVector then some (.null, resolveVector)
      else
        let resolveVector := resolveVector ++ [(module, exportName)]
        match g.resolveLocalExport (((g.module module).localExportEntries).getD []) exportName module with
        | some b => some (.binding b, resolveVector)
        | none =>
            match (((g.module module).indirectExportEntries).getD []).find? (·.exportName = exportName) with
            | some ee =>
                resolveExport fuel (g.hostResolveImportedModule module ee.moduleRequest) ee.importName
                  resolveVector
            | none =>
                if exportName = g.defaultString then some (.null, resolveVector)
                else
                  match (g.module module).starExportEntries with
                  | none => some (.null, resolveVector)
                  | some starExportEntries =>
                      g.resolveStarExports (resolveExport fuel) exportName module starExportEntries .null
                        resolveVector

/-! ## The graph of requests -/

/-- The local binding that answers a request. -/
def localBinding (r : μ × ν) : Option (ResolvedBinding μ ν) :=
  g.resolveLocalExport (((g.module r.1).localExportEntries).getD []) r.2 r.1

/-- The requests that a request without a local binding is passed on to: through the matching indirect
    entry, else, for names other than `default`, through every star entry. -/
def requests (r : μ × ν) : List (μ × ν) :=
  if (g.localBinding r).isSome then []
  else
    match (((g.module r.1).indirectExportEntries).getD []).find? (·.exportName = r.2) with
    | some ee => [(g.hostResolveImportedModule r.1 ee.moduleRequest, ee.importName)]
    | none =>
        if r.2 = g.defaultString then []
        else (((g.module r.1).starExportEntries).getD []).map fun ee =>
          (g.hostResolveImportedModule r.1 ee.moduleRequest, r.2)

/-- The local bindings that can be reached from a request. -/
def bindings (module : μ) (exportName : ν) : Set (ResolvedBinding μ ν) :=
  reachable g.requests g.localBinding (module, exportName)

end ModuleGraph

/-- How many bindings a resolution stands for. -/
def Resolution.finding : Resolution μ ν → Finding (ResolvedBinding μ ν)
  | .null => .nothing
  | .binding b => .one b
  | .ambiguous => .several

namespace ModuleGraph

variable {g : ModuleGraph μ ν ρ} {module : μ} {exportName : ν}

theorem sameBinding_iff {b b' : ResolvedBinding μ ν} : sameBinding b b' = true ↔ b = b' := by
  cases b <;> cases b' <;> simp [sameBinding]

theorem checkCircularImport_iff {resolveVector : List (μ × ν)} :
    checkCircularImport module exportName resolveVector = true ↔ (module, exportName) ∈ resolveVector := by
  simp [checkCircularImport, ← Prod.mk.injEq]

theorem mem_requests {r r' : μ × ν} : r' ∈ g.requests r ↔ g.localBinding r = none ∧
    ((∃ ee, (((g.module r.1).indirectExportEntries).getD []).find? (·.exportName = r.2) = some ee ∧
        r' = (g.hostResolveImportedModule r.1 ee.moduleRequest, ee.importName)) ∨
      (((g.module r.1).indirectExportEntries).getD []).find? (·.exportName = r.2) = none ∧
        r.2 ≠ g.defaultString ∧ ∃ ee ∈ ((g.module r.1).starExportEntries).getD [],
          r' = (g.hostResolveImportedModule r.1 ee.moduleRequest, r.2)) := by
  rw [requests]
  cases g.localBinding r with
  | some b => simp
  | none =>
    cases (((g.module r.1).indirectExportEntries).getD []).find? (·.exportName = r.2) with
    | some ee => simp
    | none => simp [eq_comm]

/-! ## The search -/

/-- What `resolveExport` does with a request. -/
def Searches (g : ModuleGraph μ ν ρ) (resolve : Resolve μ ν) : Prop :=
  ∀ module exportName visited r visited', resolve module exportName visited = some (r, visited') →
    Explored g.requests g.localBinding visited visited' [(module, exportName)] r.finding

variable {visited : List (μ × ν)} {resolve : Resolve μ ν} {star : Resolution μ ν}

/-- One star export entry. -/
theorem getStarResolution_explored (searches : Searches g resolve) {moduleRequest : ρ}
    {star' result : Resolution μ ν} {visited' visited'' starts : List (μ × ν)}
    (before : Explored g.requests g.localBinding visited visited' starts star.finding)
    (unfinished : star ≠ .ambiguous)
    (ran : g.getStarResolution resolve exportName moduleRequest module star visited' =
      some (result, star', visited'')) :
    Explored g.requests g.localBinding visited visited''
        (starts ++ [(g.hostResolveImportedModule module moduleRequest, exportName)])
        (if result = .ambiguous then .ambiguous else star' : Resolution μ ν).finding ∧
      (result ≠ .ambiguous → star' ≠ .ambiguous) := by
  obtain ⟨⟨resolution, visited1⟩, resolved, ran⟩ := Option.bind_eq_some_iff.mp ran
  have unfinished' : star.finding ≠ .several := by
    cases star with
    | null => nofun
    | binding b => nofun
    | ambiguous => exact absurd rfl unfinished
  have joined := before.next unfinished' (searches _ _ _ _ _ resolved)
  cases resolution with
  | null =>
    cases ran
    exact ⟨by simpa [Resolution.finding] using joined, fun _ => unfinished⟩
  | ambiguous =>
    cases ran
    exact ⟨by simpa [Resolution.finding] using joined, fun impossible => absurd rfl impossible⟩
  | binding b =>
    cases star with
    | null =>
      cases ran
      exact ⟨joined, fun _ => nofun⟩
    | ambiguous => exact absurd rfl unfinished
    | binding b' =>
      simp only at ran
      split_ifs at ran with same
      · cases ran
        rw [sameBinding_iff.mp same] at joined
        refine ⟨?_, fun _ => nofun⟩
        rw [if_neg nofun]
        simpa [Resolution.finding, Finding.join] using joined
      · cases ran
        have other : b' ≠ b := fun is => same (sameBinding_iff.mpr is.symm)
        refine ⟨?_, fun impossible => absurd rfl impossible⟩
        rw [if_pos rfl]
        simpa [Resolution.finding, Finding.join, other] using joined

/-- The star export entries from one of them on. -/
theorem resolveStarExports_explored (searches : Searches g resolve) {entries : List (StarExportEntry ρ)}
    {r : Resolution μ ν} {visited' visited'' starts : List (μ × ν)}
    (before : Explored g.requests g.localBinding visited visited' starts star.finding)
    (unfinished : star ≠ .ambiguous)
    (ran : g.resolveStarExports resolve exportName module entries star visited' = some (r, visited'')) :
    Explored g.requests g.localBinding visited visited''
      (starts ++ entries.map fun ee => (g.hostResolveImportedModule module ee.moduleRequest, exportName))
      r.finding := by
  induction entries generalizing star visited' starts with
  | nil =>
    cases ran
    simpa using before
  | cons ee entries ih =>
    obtain ⟨⟨result, star', visited1⟩, first, ran⟩ := Option.bind_eq_some_iff.mp ran
    obtain ⟨joined, open'⟩ := getStarResolution_explored searches before unfinished first
    simp only at ran
    split_ifs at ran joined with ended
    · cases ran
      subst ended
      exact joined.stop (by simp)
    · have rest := ih joined (open' ended) ran
      simpa using rest

/-- `ResolveExport` is a search through the graph of requests. -/
theorem resolveExport_explored (fuel : Nat) : Searches g (g.resolveExport fuel) := by
  induction fuel with
  | zero =>
    intro module exportName visited r visited' ran
    cases ran
  | succ fuel ih =>
    intro module exportName visited r visited' ran
    rw [resolveExport] at ran
    by_cases circular : checkCircularImport module exportName visited = true
    · rw [if_pos circular] at ran
      cases ran
      exact .again (checkCircularImport_iff.mp circular)
    rw [if_neg circular] at ran
    have fresh : (module, exportName) ∉ visited := fun inside => circular (checkCircularImport_iff.mpr inside)
    cases known : g.localBinding (module, exportName) with
    | some b =>
      have known' : g.resolveLocalExport (((g.module module).localExportEntries).getD []) exportName module = some b :=
        known
      simp only [known'] at ran
      cases ran
      refine .leaf fresh known ?_
      rw [requests, known]
      rfl
    | none =>
      have known' : g.resolveLocalExport (((g.module module).localExportEntries).getD []) exportName module = none :=
        known
      simp only [known'] at ran
      refine .inner fresh known ?_
      rw [requests, known]
      simp only [Option.isSome_none, Bool.false_eq_true, if_false]
      cases matching : (((g.module module).indirectExportEntries).getD []).find? (·.exportName = exportName) with
      | some ee =>
        simp only [matching] at ran
        exact ih _ _ _ _ _ ran
      | none =>
        simp only [matching] at ran
        by_cases default : exportName = g.defaultString
        · rw [if_pos default] at ran ⊢
          cases ran
          exact .none
        · rw [if_neg default] at ran ⊢
          cases stars : (g.module module).starExportEntries with
          | none =>
            simp only [stars] at ran
            cases ran
            exact .none
          | some entries =>
            simp only [stars] at ran
            have start : Explored g.requests g.localBinding (visited ++ [(module, exportName)])
                (visited ++ [(module, exportName)]) [] (Resolution.null : Resolution μ ν).finding := .none
            exact resolveStarExports_explored ih start nofun ran

/-! ## The search ends -/

/-- The star export entries are resolved if every request that is made for them is. -/
theorem resolveStarExports_total (searches : Searches g resolve) {entries : List (StarExportEntry ρ)}
    {visited0 : List (μ × ν)} (total : ∀ ee ∈ entries, ∀ visited, visited0 ⊆ visited →
      ∃ r visited', resolve (g.hostResolveImportedModule module ee.moduleRequest) exportName visited =
        some (r, visited')) (grown : visited0 ⊆ visited) :
    ∃ r visited', g.resolveStarExports resolve exportName module entries star visited = some (r, visited') := by
  induction entries generalizing star visited with
  | nil => exact ⟨star, visited, rfl⟩
  | cons ee entries ih =>
    obtain ⟨resolution, visited1, resolved⟩ := total ee (List.mem_cons_self ..) visited grown
    have grown' : visited0 ⊆ visited1 := List.Subset.trans grown (searches _ _ _ _ _ resolved).grows
    obtain ⟨result, star', first⟩ : ∃ result star', g.getStarResolution resolve exportName ee.moduleRequest module
        star visited = some (result, star', visited1) := by
      rw [getStarResolution, resolved]
      cases resolution with
      | null => exact ⟨_, _, rfl⟩
      | ambiguous => exact ⟨_, _, rfl⟩
      | binding b =>
        cases star with
        | null => exact ⟨_, _, rfl⟩
        | ambiguous => exact ⟨_, _, rfl⟩
        | binding b' =>
          simp only [Option.bind_eq_bind, Option.bind_some]
          split_ifs
          · exact ⟨_, _, rfl⟩
          · exact ⟨_, _, rfl⟩
    rw [resolveStarExports, first]
    simp only [Option.bind_eq_bind, Option.bind_some]
    split_ifs
    · exact ⟨_, _, rfl⟩
    · exact ih (fun ee inside => total ee (List.mem_cons_of_mem _ inside)) grown'

/-- Each call on the way down adds a request to the list, so that there are no more of them than requests
    can be made. -/
theorem resolveExport_total {all : Finset (μ × ν)} (closed : ∀ r ∈ all, ∀ r' ∈ g.requests r, r' ∈ all)
    {fuel : Nat} (inside : (module, exportName) ∈ all) (enough : (all \ visited.toFinset).card < fuel) :
    ∃ r visited', g.resolveExport fuel module exportName visited = some (r, visited') := by
  induction fuel generalizing module exportName visited with
  | zero => exact absurd enough (Nat.not_lt_zero _)
  | succ fuel ih =>
    rw [resolveExport]
    by_cases circular : checkCircularImport module exportName visited = true
    · rw [if_pos circular]
      exact ⟨_, _, rfl⟩
    rw [if_neg circular]
    have fresh : (module, exportName) ∉ visited := fun here => circular (checkCircularImport_iff.mpr here)
    have less {visited' : List (μ × ν)} (grown : visited ++ [(module, exportName)] ⊆ visited') :
        (all \ visited'.toFinset).card < fuel := by
      have here : (module, exportName) ∈ visited' := grown (by simp)
      have fewer : all \ visited'.toFinset ⊂ all \ visited.toFinset := by
        refine Finset.ssubset_iff_of_subset ?_ |>.mpr ⟨(module, exportName), by simp [inside, fresh], by simp [here]⟩
        intro r left
        simp only [Finset.mem_sdiff, List.mem_toFinset] at left ⊢
        exact ⟨left.1, fun old => left.2 (grown (List.mem_append_left _ old))⟩
      exact Nat.lt_of_lt_of_le (Finset.card_lt_card fewer) (Nat.le_of_lt_succ enough)
    have behind := closed _ inside
    rw [requests, localBinding] at behind
    cases known : g.resolveLocalExport (((g.module module).localExportEntries).getD []) exportName module with
    | some b => exact ⟨_, _, rfl⟩
    | none =>
      simp only [known, Option.isSome_none, Bool.false_eq_true, if_false] at behind ⊢
      cases matching : (((g.module module).indirectExportEntries).getD []).find? (·.exportName = exportName) with
      | some ee =>
        simp only [matching, List.mem_singleton, forall_eq] at behind ⊢
        exact ih behind (less (List.Subset.refl _))
      | none =>
        simp only [matching] at behind ⊢
        by_cases default : exportName = g.defaultString
        · rw [if_pos default]
          exact ⟨_, _, rfl⟩
        · rw [if_neg default] at behind ⊢
          cases stars : (g.module module).starExportEntries with
          | none => exact ⟨_, _, rfl⟩
          | some entries =>
            simp only [stars, Option.getD_some, List.mem_map] at behind ⊢
            refine resolveStarExports_total (resolveExport_explored fuel) ?_ (List.Subset.refl _)
            intro ee here visited' grown
            exact ih (behind _ ⟨ee, here, rfl⟩) (less grown)

section Finite

variable [Fintype μ]

/-- The names that indirect entries import. -/
def importNames (g : ModuleGraph μ ν ρ) : Finset ν :=
  Finset.univ.biUnion fun m => ((((g.module m).indirectExportEntries).getD []).map (·.importName)).toFinset

/-- All requests that the resolution of a name can lead to. -/
def requestsFor (g : ModuleGraph μ ν ρ) (exportName : ν) : Finset (μ × ν) :=
  Finset.univ ×ˢ insert exportName g.importNames

theorem requestsFor_closed (r : μ × ν) (inside : r ∈ g.requestsFor exportName) :
    ∀ r' ∈ g.requests r, r' ∈ g.requestsFor exportName := by
  obtain ⟨m, x⟩ := r
  simp only [requestsFor, Finset.mem_product, Finset.mem_univ, true_and] at inside ⊢
  intro r' edge
  obtain ⟨-, ⟨ee, matching, rfl⟩ | ⟨-, -, ee, -, rfl⟩⟩ := mem_requests.mp edge
  · refine Finset.mem_insert_of_mem (Finset.mem_biUnion.mpr ⟨m, Finset.mem_univ m, ?_⟩)
    exact List.mem_toFinset.mpr (List.mem_map_of_mem (List.mem_of_find?_eq_some matching))
  · exact inside

/-- A resolution returns, and it counts the bindings that can be reached. -/
theorem resolveExport_spec {fuel : Nat} (enough : (g.requestsFor exportName).card < fuel) :
    ∃ r visited, g.resolveExport fuel module exportName [] = some (r, visited) ∧
      r.finding.Counts (g.bindings module exportName) := by
  have inside : (module, exportName) ∈ g.requestsFor exportName := by simp [requestsFor]
  obtain ⟨r, visited, resolved⟩ := resolveExport_total requestsFor_closed inside
    (by simpa using enough : (g.requestsFor exportName \ ([] : List (μ × ν)).toFinset).card < fuel)
  exact ⟨r, visited, resolved, (resolveExport_explored fuel _ _ _ _ _ resolved).counts⟩

end Finite

/-- The graph with other star export entries. -/
def withStars (g : ModuleGraph μ ν ρ) (stars : μ → Option (List (StarExportEntry ρ))) : ModuleGraph μ ν ρ :=
  { g with module := fun m => { g.module m with starExportEntries := stars m } }

/-- The order of the star export entries is of no importance for what can be reached. -/
theorem bindings_withStars {stars : μ → Option (List (StarExportEntry ρ))}
    (perm : ∀ m, ((stars m).getD []).Perm (((g.module m).starExportEntries).getD [])) :
    (g.withStars stars).bindings module exportName = g.bindings module exportName := by
  have edges (r r' : μ × ν) : r' ∈ (g.withStars stars).requests r ↔ r' ∈ g.requests r := by
    have members (ee : StarExportEntry ρ) : ee ∈ ((stars r.1).getD []) ↔
        ee ∈ ((g.module r.1).starExportEntries).getD [] := (perm r.1).mem_iff
    rw [mem_requests, mem_requests]
    simp only [withStars, members]
    rfl
  have same : Reach (g.withStars stars).requests = Reach g.requests := by
    unfold Reach
    congr 1
    funext r r'
    exact propext (edges r r')
  rw [bindings, bindings, reachable, reachable, same]
  rfl

end ModuleGraph

theorem Resolution.eq_iff_finding (r r' : Resolution μ ν) : r = r' ↔ r.finding = r'.finding := by
  cases r <;> cases r' <;> simp [Resolution.finding]

/-- In every finite graph of modules a resolution ends, with null, a binding or "ambiguous" as no, one or
    several local bindings can be reached, whatever the order of the star export entries. -/
theorem resolveExport_counts_bindings [Fintype μ] (g : ModuleGraph μ ν ρ) (module : μ) (exportName : ν)
    {fuel : Nat} (enough : (g.requestsFor exportName).card < fuel) :
    ∃ r visited, g.resolveExport fuel module exportName [] = some (r, visited) ∧
      (r = .null ↔ g.bindings module exportName = ∅) ∧
      (∀ b, r = .binding b ↔ g.bindings module exportName = {b}) ∧
      (r = .ambiguous ↔ (g.bindings module exportName).Nontrivial) ∧
      ∀ stars, (∀ m, ((stars m).getD []).Perm (((g.module m).starExportEntries).getD [])) →
        ∃ visited', (g.withStars stars).resolveExport fuel module exportName [] = some (r, visited') := by
  have spec (g : ModuleGraph μ ν ρ) (enough : (g.requestsFor exportName).card < fuel) :
      ∃ r visited, g.resolveExport fuel module exportName [] = some (r, visited) ∧
        r.finding.Counts (g.bindings module exportName) := ModuleGraph.resolveExport_spec enough
  obtain ⟨r, visited, resolved, counts⟩ := spec g enough
  refine ⟨r, visited, resolved, ?_, ?_, ?_, ?_⟩
  · exact (Resolution.eq_iff_finding r .null).trans counts.nothing_iff
  · intro b
    exact (Resolution.eq_iff_finding r (.binding b)).trans (counts.one_iff b)
  · exact (Resolution.eq_iff_finding r .ambiguous).trans counts.several_iff
  · intro stars perm
    obtain ⟨r', visited', resolved', counts'⟩ := spec (g.withStars stars) enough
    rw [ModuleGraph.bindings_withStars perm] at counts'
    rw [(Resolution.eq_iff_finding r r').mpr (counts.unique counts')]
    exact ⟨visited', resolved'⟩

/-- Three modules: 0 exports everything of 1 and 2, 1 has the binding and exports everything of 0, and 2 passes
    the name on to 1. -/
def diamond : ModuleGraph (Fin 3) String (Fin 3) where
  module m := match m with
    | 0 => ⟨none, none, some [⟨1⟩, ⟨2⟩]⟩
    | 1 => ⟨some [⟨"x", 0, "y"⟩], none, some [⟨0⟩]⟩
    | 2 => ⟨none, some [⟨"x", 1, "x"⟩], none⟩
  hostResolveImportedModule _ request := request
  isNewBcVersion := true
  defaultString := "default"

theorem resolveExport_counts_bindings_diamond :
    (diamond.requestsFor "x").card < 10 ∧
      ∃ r visited, diamond.resolveExport 10 0 "x" [] = some (r, visited) ∧
        (r = .null ↔ diamond.bindings 0 "x" = ∅) ∧
        (∀ b, r = .binding b ↔ diamond.bindings 0 "x" = {b}) ∧
        (r = .ambiguous ↔ (diamond.bindings 0 "x").Nontrivial) ∧
        ∀ stars, (∀ m, ((stars m).getD []).Perm (((diamond.module m).starExportEntries).getD [])) →
          ∃ visited', (diamond.withStars stars).resolveExport 10 0 "x" [] = some (r, visited') :=
  ⟨by decide, resolveExport_counts_bindings diamond 0 "x" (by decide)⟩

end Module

end ArkRuntime
