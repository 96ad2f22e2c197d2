import ArkRuntime.Module.ResolveExport
import Mathlib.Data.List.TakeWhile

/-!
# The environments of modules

`ModuleDeclarationEnvironmentSetup` and `ModuleDeclarationArrayEnvironmentSetup`
(`ecmascript/module/js_module_source_text.cpp`). The first fills a dictionary; the second, for the new bytecode,
an array with a slot for each import entry, and it returns at the first star import: the entries of a module that
is loaded have these at their end. A `SyntaxError` names the request and the name, and its text is left out.
-/

namespace ArkRuntime

namespace Module

structure ImportEntry (ν ρ : Type) where
  moduleRequest : ρ
  importName : ν
  localName : ν
deriving DecidableEq, Repr

inductive SetupError (ν ρ : Type) where
  | syntaxError (moduleRequest : Option ρ) (name : ν)
  | unfinished
deriving DecidableEq, Repr

/-- A value of the dictionary. -/
inductive EnvValue (μ ν : Type) where
  | namespace (module : μ)
  | resolution (b : ResolvedBinding μ ν)
deriving DecidableEq, Repr

/-- A slot of the array. The last three are what `CloneModuleEnvironment` puts there: a binding of a shared module,
    a binding by the name of its module, and nothing. -/
inductive EnvSlot (μ ν : Type) where
  | hole
  | resolution (b : ResolvedBinding μ ν)
  | shared (b : ResolvedBinding μ ν)
  | record (moduleName : ν) (binding : Nat ⊕ ν)
  | undefined
deriving DecidableEq, Repr

structure ImportGraph (μ ν ρ : Type) extends ModuleGraph μ ν ρ where
  importEntries : μ → Option (List (ImportEntry ν ρ))
  starString : ν
  isSharedModule : μ → Bool
  /-- `IsInstaniatedSModule`. -/
  isInstantiatedSModule : μ → Bool
  getModuleName : μ → ν
  /-- `EnableReportModuleResolvingFailure`. -/
  reportFailure : Bool

/-- The order in which `ModuleDataAccessor::EnumerateImportEntry` puts the entries. -/
def enumerateImportEntry {ν ρ : Type} (starString : ν) (regular : List (ImportEntry ν ρ))
    (namespaces : List (ν × ρ)) : List (ImportEntry ν ρ) :=
  regular ++ namespaces.map fun (localName, moduleRequest) => ⟨moduleRequest, starString, localName⟩

namespace ImportGraph

variable {μ ν ρ : Type} [DecidableEq μ] [DecidableEq ν] (g : ImportGraph μ ν ρ) (fuel : Nat) (module : μ)

/-- `ResolveExport` with an empty list of requests. -/
def resolve (module : μ) (exportName : ν) : Option (Resolution μ ν) :=
  (g.resolveExport fuel module exportName []).map (·.1)

/-- `ResolveExport` of what an entry imports. -/
def resolveEntry (entry : ImportEntry ν ρ) : Option (Resolution μ ν) :=
  g.resolve fuel (g.hostResolveImportedModule module entry.moduleRequest) entry.importName

/-- `CheckResolvedBinding` and `CheckResolvedIndexBinding`. -/
def checkResolvedBinding : List (IndirectExportEntry ν ρ) → Except (SetupError ν ρ) Unit
  | [] => .ok ()
  | ee :: indirectExportEntries =>
      match g.resolve fuel module ee.exportName with
      | none => .error .unfinished
      | some (.binding _) => checkResolvedBinding indirectExportEntries
      | some _ => .error (.syntaxError (some ee.moduleRequest) ee.exportName)

/-- The loop of `ModuleDeclarationEnvironmentSetup`. -/
def setupDictionary : List (ImportEntry ν ρ) → (ν → Option (EnvValue μ ν)) →
    Except (SetupError ν ρ) (ν → Option (EnvValue μ ν))
  | [], envRec => .ok envRec
  | entry :: importEntries, envRec =>
      if entry.importName = g.starString then
        let importedModule := g.hostResolveImportedModule module entry.moduleRequest
        setupDictionary importEntries (Function.update envRec entry.localName (some (.namespace importedModule)))
      else
        match g.resolveEntry fuel module entry with
        | none => .error .unfinished
        | some (.binding b) =>
            setupDictionary importEntries (Function.update envRec entry.localName (some (.resolution b)))
        | some _ => .error (.syntaxError (some entry.moduleRequest) entry.importName)

/-- `ModuleDeclarationEnvironmentSetup`: the environment, if it is set. -/
def moduleDeclarationEnvironmentSetup :
    Except (SetupError ν ρ) (Option (ν → Option (EnvValue μ ν))) := do
  g.checkResolvedBinding fuel module (((g.module module).indirectExportEntries).getD [])
  match g.importEntries module with
  | none => return none
  | some importEntries => return some (← g.setupDictionary fuel module importEntries fun _ => none)

/-- The loop of `ModuleDeclarationArrayEnvironmentSetup` from the index `idx` on. -/
def setupArray : List (ImportEntry ν ρ) → Nat → List (EnvSlot μ ν) →
    Except (SetupError ν ρ) (List (EnvSlot μ ν))
  | [], _, envRec => .ok envRec
  | entry :: importEntries, idx, envRec =>
      if entry.importName = g.starString then .ok envRec
      else
        match g.resolveEntry fuel module entry with
        | none => .error .unfinished
        | some (.binding b) => setupArray importEntries (idx + 1) (envRec.set idx (.resolution b))
        | some _ =>
            if g.reportFailure then .error (.syntaxError (some entry.moduleRequest) entry.importName)
            -- if in aot compiation, we should skip this error.
            else setupArray importEntries (idx + 1) (envRec.set idx .hole)

/-- `CloneRecordIndexBinding` and `CloneRecordNameBinding`, with the loop of `CloneModuleEnvironment`. -/
def cloneSlot : EnvSlot μ ν → EnvSlot μ ν
  | .resolution (.index resolvedModule index) =>
      if g.isSharedModule resolvedModule then .shared (.index resolvedModule index)
      else .record (g.getModuleName resolvedModule) (.inl index)
  | .resolution (.name resolvedModule bindingName) =>
      if g.isSharedModule resolvedModule then .shared (.name resolvedModule bindingName)
      else .record (g.getModuleName resolvedModule) (.inr bindingName)
  | _ => .undefined

/-- `CloneEnvForSModule`. -/
def cloneEnvForSModule (envRec : List (EnvSlot μ ν)) : List (EnvSlot μ ν) :=
  if g.isSharedModule module then envRec.map g.cloneSlot else envRec

/-- `ModuleDeclarationArrayEnvironmentSetup`: the environment, if it is set. -/
def moduleDeclarationArrayEnvironmentSetup : Except (SetupError ν ρ) (Option (List (EnvSlot μ ν))) := do
  if g.isSharedModule module && g.isInstantiatedSModule module then return none
  else
    g.checkResolvedBinding fuel module (((g.module module).indirectExportEntries).getD [])
    match g.importEntries module with
    | none => return none
    | some importEntries =>
        let envRec ← g.setupArray fuel module importEntries 0 (List.replicate importEntries.length .hole)
        return some (g.cloneEnvForSModule module envRec)

variable {g fuel module} {entries : List (ImportEntry ν ρ)}

/-- The named imports among the entries are resolved. -/
def Resolves (g : ImportGraph μ ν ρ) (fuel : Nat) (module : μ) (entries : List (ImportEntry ν ρ)) : Prop :=
  ∀ entry ∈ entries, entry.importName ≠ g.starString →
    ∃ b, g.resolveEntry fuel module entry = some (.binding b)

/-- The entries in front of the first star import. -/
def named (g : ImportGraph μ ν ρ) (entries : List (ImportEntry ν ρ)) : List (ImportEntry ν ρ) :=
  entries.takeWhile fun entry => entry.importName ≠ g.starString

/-- The loop writes the slots of the entries in front of the first star import. -/
theorem setupArray_spec (resolves : Resolves g fuel module entries) (front : List (EnvSlot μ ν)) :
    ∃ slots, g.setupArray fuel module entries front.length (front ++ List.replicate entries.length .hole) =
        .ok (front ++ slots ++ List.replicate (entries.length - slots.length) .hole) ∧
      List.Forall₂ (fun entry slot => ∃ b, g.resolveEntry fuel module entry = some (.binding b) ∧
        slot = .resolution b) (g.named entries) slots := by
  induction entries generalizing front with
  | nil => exact ⟨[], by simp [setupArray], .nil⟩
  | cons entry entries ih =>
    by_cases star : entry.importName = g.starString
    · refine ⟨[], by simp [setupArray, star], ?_⟩
      rw [named, List.takeWhile_cons_of_neg (by simpa using star)]
      exact .nil
    · obtain ⟨b, resolved⟩ := resolves entry (by simp) star
      obtain ⟨slots, rest, written⟩ := ih (fun e mem => resolves e (by simp [mem])) (front ++ [.resolution b])
      refine ⟨.resolution b :: slots, ?_, ?_⟩
      · rw [List.length_append, List.length_singleton] at rest
        rw [setupArray, if_neg star, resolved, List.length_cons, List.replicate_succ]
        simp only [List.set_append_right front.length _ (Nat.le_refl _), Nat.sub_self, List.set_cons_zero]
        rw [List.append_cons, rest]
        simp
      · rw [named, List.takeWhile_cons_of_pos (by simpa using star)]
        exact .cons ⟨b, resolved, rfl⟩ written

/-- What the dictionary gets for an entry. -/
def Bound (g : ImportGraph μ ν ρ) (fuel : Nat) (module : μ) (entry : ImportEntry ν ρ)
    (value : Option (EnvValue μ ν)) : Prop :=
  if entry.importName = g.starString then
    value = some (.namespace (g.hostResolveImportedModule module entry.moduleRequest))
  else ∃ b, g.resolveEntry fuel module entry = some (.binding b) ∧ value = some (.resolution b)

/-- The loop binds the local name of each entry and no other. -/
theorem setupDictionary_spec (resolves : Resolves g fuel module entries) (envRec : ν → Option (EnvValue μ ν)) :
    ∃ envRec', g.setupDictionary fuel module entries envRec = .ok envRec' ∧
      (∀ name, name ∉ entries.map (·.localName) → envRec' name = envRec name) ∧
      ((entries.map (·.localName)).Nodup → ∀ entry ∈ entries, Bound g fuel module entry (envRec' entry.localName)) := by
  induction entries generalizing envRec with
  | nil => exact ⟨envRec, rfl, fun _ _ => rfl, fun _ entry mem => by cases mem⟩
  | cons entry entries ih =>
    have later := fun envRec => ih (fun e mem => resolves e (by simp [mem])) envRec
    obtain ⟨value, step, bound⟩ : ∃ value,
        g.setupDictionary fuel module (entry :: entries) envRec =
          g.setupDictionary fuel module entries (Function.update envRec entry.localName value) ∧
        Bound g fuel module entry value := by
      by_cases star : entry.importName = g.starString
      · refine ⟨_, ?_, (if_pos star).mpr rfl⟩
        rw [setupDictionary, if_pos star]
      · obtain ⟨b, resolved⟩ := resolves entry (by simp) star
        refine ⟨_, ?_, (if_neg star).mpr ⟨b, resolved, rfl⟩⟩
        rw [setupDictionary, if_neg star, resolved]
    obtain ⟨envRec', rest, frame, binds⟩ := later (Function.update envRec entry.localName value)
    refine ⟨envRec', by rw [step, rest], ?_, ?_⟩
    · intro name absent
      rw [List.map_cons, List.mem_cons, not_or] at absent
      rw [frame name absent.2, Function.update_of_ne absent.1]
    · intro distinct e mem
      rw [List.map_cons, List.nodup_cons] at distinct
      rcases List.mem_cons.mp mem with rfl | mem
      · rw [frame _ distinct.1, Function.update_self]
        exact bound
      · exact binds distinct.2 e mem

/-- The slot of a binding. -/
def slotOf (g : ImportGraph μ ν ρ) (module : μ) (b : ResolvedBinding μ ν) : EnvSlot μ ν :=
  if g.isSharedModule module then g.cloneSlot (.resolution b) else .resolution b

/-- The entries of a module that is loaded have no named import behind a star import. -/
theorem named_enumerateImportEntry (g : ImportGraph μ ν ρ) {regular : List (ImportEntry ν ρ)}
    (plain : ∀ entry ∈ regular, entry.importName ≠ g.starString) (namespaces : List (ν × ρ)) :
    g.named (enumerateImportEntry g.starString regular namespaces) = regular := by
  have front : regular.takeWhile (fun entry => entry.importName ≠ g.starString) = regular :=
    List.takeWhile_eq_self_iff.mpr fun entry mem => by simpa using plain entry mem
  rw [named, enumerateImportEntry, List.takeWhile_append, front, if_pos rfl]
  cases namespaces with
  | nil => simp
  | cons first namespaces => simp

/-- The named imports in front of the first star import are bound in the array, and like in the dictionary; in the order of
`EnumerateImportEntry` these are all named imports. -/
theorem moduleDeclarationArrayEnvironmentSetup_binds (g : ImportGraph μ ν ρ) (fuel : Nat) (module : μ)
    (entries : List (ImportEntry ν ρ)) (imports : g.importEntries module = some entries)
    (fresh : (g.isSharedModule module && g.isInstantiatedSModule module) = false)
    (exports : g.checkResolvedBinding fuel module (((g.module module).indirectExportEntries).getD []) = .ok ())
    (resolves : Resolves g fuel module entries) :
    ∃ (env : List (EnvSlot μ ν)) (dictionary : ν → Option (EnvValue μ ν)),
      g.moduleDeclarationArrayEnvironmentSetup fuel module = .ok (some env) ∧
      g.moduleDeclarationEnvironmentSetup fuel module = .ok (some dictionary) ∧
      (∀ (idx : Nat) entry, (g.named entries)[idx]? = some entry → ∃ b,
        g.resolveEntry fuel module entry = some (.binding b) ∧ env[idx]? = some (g.slotOf module b) ∧
          ((entries.map (·.localName)).Nodup → dictionary entry.localName = some (.resolution b))) ∧
      ∀ regular namespaces, entries = enumerateImportEntry g.starString regular namespaces →
        (∀ entry ∈ regular, entry.importName ≠ g.starString) → g.named entries = regular := by
  obtain ⟨slots, array, written⟩ := setupArray_spec resolves []
  obtain ⟨dictionary, filled, -, binds⟩ := setupDictionary_spec resolves fun _ => none
  rw [List.length_nil, List.nil_append, List.nil_append] at array
  refine ⟨g.cloneEnvForSModule module (slots ++ List.replicate (entries.length - slots.length) .hole), dictionary,
    ?_, ?_, ?_, ?_⟩
  · rw [moduleDeclarationArrayEnvironmentSetup, fresh, exports, imports]
    simp only [array]
    rfl
  · rw [moduleDeclarationEnvironmentSetup, exports, imports]
    simp only [filled]
    rfl
  · intro idx entry here
    have among : entry ∈ entries := List.takeWhile_subset _ (List.mem_of_getElem? here)
    have plain : entry.importName ≠ g.starString := by
      simpa using List.mem_takeWhile_imp (List.mem_of_getElem? here)
    obtain ⟨b, resolved⟩ := resolves entry among plain
    have slot : slots[idx]? = some (.resolution b) := by
      obtain ⟨length, each⟩ := List.forall₂_iff_get.mp written
      obtain ⟨inside, rfl⟩ := List.getElem?_eq_some_iff.mp here
      obtain ⟨b', resolved', is⟩ := each idx inside (length ▸ inside)
      rw [List.get_eq_getElem] at resolved' is
      rw [resolved] at resolved'
      cases resolved'
      exact List.getElem?_eq_some_iff.mpr ⟨_, is⟩
    refine ⟨b, resolved, ?_, ?_⟩
    · have whole : (slots ++ List.replicate (entries.length - slots.length) EnvSlot.hole)[idx]? =
          some (.resolution b) := by
        rw [List.getElem?_append_left (List.getElem?_eq_some_iff.mp slot).1, slot]
      rw [cloneEnvForSModule, slotOf]
      cases g.isSharedModule module with
      | true => rw [if_pos rfl, if_pos rfl, List.getElem?_map, whole, Option.map_some]
      | false => rw [if_neg Bool.false_ne_true, if_neg Bool.false_ne_true, whole]
    · intro distinct
      obtain ⟨b', resolved', bound⟩ := (if_neg plain).mp (binds distinct entry among)
      rw [resolved] at resolved'
      cases resolved'
      exact bound
  · rintro regular namespaces rfl plain
    exact named_enumerateImportEntry g plain namespaces

/-- A module that imports the export 5 of the module `true`, then that module as a namespace and then the export 5
again. -/
def starBetween : ImportGraph Bool Nat Unit where
  module m := if m then ⟨some [⟨5, 0, 5⟩], none, none⟩ else ⟨none, none, none⟩
  hostResolveImportedModule _ _ := true
  isNewBcVersion := true
  defaultString := 1
  importEntries m := if m then none else some [⟨(), 5, 7⟩, ⟨(), 0, 8⟩, ⟨(), 5, 9⟩]
  starString := 0
  isSharedModule _ := false
  isInstantiatedSModule _ := false
  getModuleName m := if m then 11 else 10
  reportFailure := true

/-- The slot of the named import behind the star import stays empty. -/
theorem named_behind_star :
    starBetween.resolveEntry 1 false ⟨(), 5, 9⟩ = some (.binding (.index true 0)) ∧
      starBetween.moduleDeclarationArrayEnvironmentSetup 1 false =
        .ok (some [.resolution (.index true 0), .hole, .hole]) ∧
      ¬([.resolution (.index true 0), .hole, .hole] : List (EnvSlot Bool Nat))[2]? =
        some (starBetween.slotOf false (.index true 0)) := by
  refine ⟨rfl, rfl, by decide⟩

theorem moduleDeclarationArrayEnvironmentSetup_binds_starBetween :
    (∃ (env : List (EnvSlot Bool Nat)) (dictionary : Nat → Option (EnvValue Bool Nat)),
      starBetween.moduleDeclarationArrayEnvironmentSetup 1 false = .ok (some env) ∧
      starBetween.moduleDeclarationEnvironmentSetup 1 false = .ok (some dictionary) ∧
      (∀ (idx : Nat) entry,
        (starBetween.named [⟨(), 5, 7⟩, ⟨(), 0, 8⟩, ⟨(), 5, 9⟩])[idx]? = some entry → ∃ b,
        starBetween.resolveEntry 1 false entry = some (.binding b) ∧ env[idx]? = some (starBetween.slotOf false b) ∧
          ((([⟨(), 5, 7⟩, ⟨(), 0, 8⟩, ⟨(), 5, 9⟩] : List (ImportEntry Nat Unit)).map (·.localName)).Nodup →
            dictionary entry.localName = some (.resolution b))) ∧
      ∀ regular namespaces,
        [⟨(), 5, 7⟩, ⟨(), 0, 8⟩, ⟨(), 5, 9⟩] = enumerateImportEntry starBetween.starString regular namespaces →
        (∀ entry ∈ regular, entry.importName ≠ starBetween.starString) →
          starBetween.named [⟨(), 5, 7⟩, ⟨(), 0, 8⟩, ⟨(), 5, 9⟩] = regular) ∧
      starBetween.named [⟨(), 5, 7⟩, ⟨(), 0, 8⟩, ⟨(), 5, 9⟩] = [⟨(), 5, 7⟩] :=
  ⟨moduleDeclarationArrayEnvironmentSetup_binds starBetween 1 false _ rfl rfl rfl (by
    intro entry mem plain
    simp only [List.mem_cons, List.not_mem_nil, or_false] at mem
    rcases mem with rfl | rfl | rfl
    · exact ⟨.index true 0, rfl⟩
    · exact absurd rfl plain
    · exact ⟨.index true 0, rfl⟩), by decide⟩

end ImportGraph

end Module

end ArkRuntime
