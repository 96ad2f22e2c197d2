import ArkRuntime.Misc.Run
import ArkRuntime.TaggedHash.SetVal

/-!
# Runs of a hash map without `Remove`

A run keeps one node a key, counts the keys and gives each the value of its last `Set` or `Replace`,
exactly if no `Set` descends past the node of its key.
-/

namespace ArkRuntime

namespace JSAPIHashMap

open TaggedHashArray

variable {α : Type} {rt : KeyRuntime α}

/-! ## The calls -/

inductive MapCall (α : Type) where
  | set (key value : JSTaggedValue α)
  | get (key : JSTaggedValue α)
  | hasKey (key : JSTaggedValue α)
  | replace (key newValue : JSTaggedValue α)
  | clear
  deriving DecidableEq, Repr

namespace MapCall

/-- A Hole is no value of the language. -/
def KeyIsValue : MapCall α → Prop
  | .set key _ | .get key | .hasKey key | .replace key _ => key.isHole = false
  | .clear => True

/-- The map after a call; `none` is a fault. The error of `Set` leaves the map as it was. -/
def step (rt : KeyRuntime α) (hashMap : JSAPIHashMap α) : MapCall α → Option (JSAPIHashMap α)
  | .set key value => (hashMap.set rt key value).toOption.map fun result => result.toOption.getD hashMap
  | .get _ | .hasKey _ => some hashMap
  | .replace key newValue => some ((hashMap.replace rt key newValue).getD hashMap)
  | .clear => some hashMap.clear

/-- What a call makes of the value of the key `k`. -/
def effect (rt : KeyRuntime α) (k : JSTaggedValue α) (last : Option (JSTaggedValue α)) :
    MapCall α → Option (JSTaggedValue α)
  | .set key value => if !key.isUndefined && rt.sameValue k key then some value else last
  | .get _ | .hasKey _ => last
  | .replace key newValue => if rt.sameValue k key then last.map fun _ => newValue else last
  | .clear => none

/-- What a call makes of the keys that are set, each of which is listed once. -/
def addKey (rt : KeyRuntime α) (keys : List (JSTaggedValue α)) : MapCall α → List (JSTaggedValue α)
  | .set key _ => if key.isUndefined || keys.any (rt.sameValue key) then keys else key :: keys
  | .get _ | .hasKey _ | .replace _ _ => keys
  | .clear => []

/-- `Set` does not descend past the node of its key, and the count of the nodes does not overflow. -/
def FindsKey (rt : KeyRuntime α) (hashMap : JSAPIHashMap α) : MapCall α → Prop
  | .set key _ => key.isUndefined = true ∨ hashMap.table.isLeftOfEqual rt key = false ∧
      (hashMap.size + 1 = 0 → hashMap.hasKey rt key = true)
  | _ => True

end MapCall

/-- The value of the last `Set` or `Replace` of a key since the last `Clear`. -/
def lastValue (rt : KeyRuntime α) (k : JSTaggedValue α) (calls : List (MapCall α)) :
    Option (JSTaggedValue α) :=
  calls.foldl (MapCall.effect rt k) none

/-- The keys that were set since the last `Clear`. -/
def keysSet (rt : KeyRuntime α) (calls : List (MapCall α)) : List (JSTaggedValue α) :=
  calls.foldl (MapCall.addKey rt) []

/-- No key is in two nodes, the keys are counted, and `Get` gives their last values. -/
structure KeepsLast (rt : KeyRuntime α) (calls : List (MapCall α)) (hashMap : JSAPIHashMap α) :
    Prop where
  distinct : DistinctKeys rt hashMap.table.nodes
  size : hashMap.size.toNat = (keysSet rt calls).length
  get : ∀ key, key.isHole = false → hashMap.get rt key = (lastValue rt key calls).getD .undefined

/-! ## The nodes and the calls -/

/-- The value in the node of a key. -/
def valueOf (rt : KeyRuntime α) (l : List (TaggedNode α)) (k : JSTaggedValue α) :
    Option (JSTaggedValue α) :=
  (l.find? fun node => rt.sameValue k node.key).map TaggedNode.value

/-- The map holds what the calls have set. -/
structure Represents (rt : KeyRuntime α) (calls : List (MapCall α)) (hashMap : JSAPIHashMap α) :
    Prop where
  kept : Kept rt hashMap.table
  size : hashMap.size.toNat = hashMap.table.nodes.length
  keys : (hashMap.table.nodes.map TaggedNode.key).Perm (keysSet rt calls)
  values : ∀ k, valueOf rt hashMap.table.nodes k = lastValue rt k calls

variable {l l' : List (TaggedNode α)} {added : Bool}

theorem valueOf_perm (distinct : DistinctKeys rt l) (perm : l.Perm l') (k : JSTaggedValue α) :
    valueOf rt l k = valueOf rt l' k := by
  have once : l.Pairwise fun x y => ¬(rt.sameValue k x.key = true ∧ rt.sameValue k y.key = true) := by
    refine List.Pairwise.imp ?_ distinct
    intro x y differ both
    have same := rt.trans _ _ _ (rt.symm _ _ both.1) both.2
    rw [differ] at same
    cases same
  rw [valueOf, valueOf, find?_eq_of_perm perm once]

theorem valueOf_cons (node : TaggedNode α) (l : List (TaggedNode α)) (k : JSTaggedValue α) :
    valueOf rt (node :: l) k = if rt.sameValue k node.key then some node.value else valueOf rt l k := by
  rw [valueOf, List.find?_cons]
  cases rt.sameValue k node.key <;> rfl

theorem sameValue_right (rt : KeyRuntime α) {x y : JSTaggedValue α} (same : rt.sameValue x y = true)
    (k : JSTaggedValue α) : rt.sameValue k x = rt.sameValue k y :=
  Bool.eq_iff_iff.mpr ⟨fun first => rt.trans _ _ _ first same,
    fun second => rt.trans _ _ _ second (rt.symm _ _ same)⟩

/-- Storing a value changes the value of its key. -/
theorem valueOf_stored {key value : JSTaggedValue α} (stored : Put rt key value l l' added)
    (distinct : DistinctKeys rt l) (k : JSTaggedValue α) :
    valueOf rt l' k = if rt.sameValue k key then some value else valueOf rt l k := by
  have distinct' := stored.distinct distinct
  cases stored with
  | updated same before after =>
    rw [valueOf_perm distinct before, valueOf_perm distinct' after, valueOf_cons, valueOf_cons,
      sameValue_right rt same]
    split <;> rfl
  | added absent after => rw [valueOf_perm distinct' after, valueOf_cons]

theorem map_key {key value : JSTaggedValue α} (stored : Put rt key value l l' added) :
    (l'.map TaggedNode.key).Perm (if added then key :: l.map TaggedNode.key else l.map TaggedNode.key) := by
  cases stored with
  | updated same before after => exact (after.map TaggedNode.key).trans (before.map TaggedNode.key).symm
  | added absent after => exact after.map TaggedNode.key

theorem Put.any_eq {key value : JSTaggedValue α} (stored : Put rt key value l l' added) :
    (l.any fun node => rt.sameValue key node.key) = !added := by
  cases stored with
  | @updated node rest same before after => rw [before.any_eq, List.any_cons, same]; rfl
  | added absent after => exact List.any_eq_false.mpr fun node mem => by rw [absent node mem]; exact Bool.false_ne_true

@[simp] theorem lastValue_snoc (k : JSTaggedValue α) (calls : List (MapCall α)) (call : MapCall α) :
    lastValue rt k (calls ++ [call]) = call.effect rt k (lastValue rt k calls) := by
  rw [lastValue, List.foldl_append]
  rfl

@[simp] theorem keysSet_snoc (calls : List (MapCall α)) (call : MapCall α) :
    keysSet rt (calls ++ [call]) = call.addKey rt (keysSet rt calls) := by
  rw [keysSet, List.foldl_append]
  rfl

namespace Represents

variable {hashMap : JSAPIHashMap α} {calls : List (MapCall α)} {key value : JSTaggedValue α}
  (represents : Represents rt calls hashMap)
  (assigned : ∀ x y, rt.sameValue x y = true → rt.hash x = rt.hash y)

include represents

theorem any_keysSet (key : JSTaggedValue α) : (keysSet rt calls).any (rt.sameValue key) =
    hashMap.table.nodes.any fun node => rt.sameValue key node.key := by
  rw [← represents.keys.any_eq, List.any_map]
  rfl

include assigned

theorem getNode_eq (isKey : key.isHole = false) : getNode rt hashMap.table (rt.hash key) key =
    hashMap.table.nodes.find? fun node => rt.sameValue key node.key :=
  getNode_kept represents.kept assigned isKey

theorem hasKey_eq (isKey : key.isHole = false) :
    hashMap.hasKey rt key = (keysSet rt calls).any (rt.sameValue key) := by
  rw [hasKey, represents.getNode_eq assigned isKey, represents.any_keysSet, Bool.eq_iff_iff,
    List.find?_isSome, List.any_eq_true]

theorem keepsLast : KeepsLast rt calls hashMap where
  distinct := represents.kept.distinct
  size := by rw [represents.size, ← represents.keys.length_eq, List.length_map]
  get := by
    intro key isKey
    rw [get, represents.getNode_eq assigned isKey, ← represents.values, valueOf]
    cases hashMap.table.nodes.find? fun node => rt.sameValue key node.key <;> rfl

/-- `Set` that does not descend past the node of its key. -/
theorem set (isKey : key.isHole = false) (finds : (MapCall.set key value).FindsKey rt hashMap) :
    ∃ next, (MapCall.set key value).step rt hashMap = some next ∧
      Represents rt (calls ++ [.set key value]) next := by
  by_cases undefined : key.isUndefined = true
  · refine ⟨hashMap, ?_, represents.kept, represents.size, ?_, fun k => ?_⟩
    · rw [MapCall.step, JSAPIHashMap.set, if_pos undefined]
      rfl
    · rw [keysSet_snoc, MapCall.addKey, undefined]
      exact represents.keys
    · rw [lastValue_snoc, MapCall.effect, undefined]
      exact represents.values k
  · obtain ⟨found, counts⟩ := finds.resolve_left undefined
    obtain ⟨t, added, run, kept, stored⟩ :=
      setVal_stored represents.kept assigned isKey value found
    obtain ⟨grown, run', kept', perm⟩ := grow_kept kept (if added then hashMap.size + 1 else hashMap.size)
    have here := represents.any_keysSet key
    rw [Put.any_eq stored] at here
    refine ⟨⟨grown, if added then hashMap.size + 1 else hashMap.size⟩, ?_, kept', ?_, ?_, fun k => ?_⟩
    · rw [MapCall.step, JSAPIHashMap.set, if_neg undefined, run, ok_bind]
      simp only [run']
      rfl
    · rw [perm.length_eq, stored.length, ← represents.size]
      cases added with
      | false => rfl
      | true =>
        have small : hashMap.size.toNat + 1 < 2 ^ 32 := by
          by_contra full
          have wraps : hashMap.size + 1 = 0 := by
            have below := hashMap.size.toNat_lt
            rw [← UInt32.toNat_inj, UInt32.toNat_add, show (1 : UInt32).toNat = 1 from rfl,
              show (0 : UInt32).toNat = 0 from rfl]
            omega
          have inside := counts wraps
          rw [represents.hasKey_eq assigned isKey, here] at inside
          cases inside
        rw [if_pos rfl, UInt32.toNat_add, show (1 : UInt32).toNat = 1 from rfl, Nat.mod_eq_of_lt small]
        rfl
    · rw [keysSet_snoc, MapCall.addKey, Bool.eq_false_iff.mpr undefined, here]
      have keys := (perm.map TaggedNode.key).trans (map_key stored)
      cases added with
      | false => exact keys.trans represents.keys
      | true => exact keys.trans (represents.keys.cons key)
    · rw [lastValue_snoc, MapCall.effect, Bool.eq_false_iff.mpr undefined,
        valueOf_perm kept'.distinct perm, valueOf_stored stored represents.kept.distinct,
        represents.values]
      rfl

theorem replace (isKey : key.isHole = false) (newValue : JSTaggedValue α) :
    Represents rt (calls ++ [.replace key newValue]) ((hashMap.replace rt key newValue).getD hashMap) := by
  rw [JSAPIHashMap.replace]
  rcases replaceNode_stored represents.kept assigned isKey newValue with
    ⟨t, run, kept, stored⟩ | ⟨run, absent⟩
  · rw [run]
    refine ⟨kept, ?_, ?_, fun k => ?_⟩
    · rw [Option.map_some, Option.getD_some, stored.length, ← represents.size]
      rfl
    · rw [keysSet_snoc]
      exact (map_key stored).trans represents.keys
    · rw [lastValue_snoc, MapCall.effect, ← represents.values, Option.map_some, Option.getD_some,
        valueOf_stored stored represents.kept.distinct]
      by_cases same : rt.sameValue k key = true
      · cases stored with
        | updated here before after =>
          rw [if_pos same, if_pos same, valueOf_perm represents.kept.distinct before, valueOf_cons,
            ← sameValue_right rt here, if_pos same]
          rfl
      · rw [if_neg same, if_neg same]
  · rw [run]
    refine ⟨represents.kept, represents.size, ?_, fun k => ?_⟩
    · rw [keysSet_snoc]
      exact represents.keys
    · rw [lastValue_snoc, MapCall.effect, ← represents.values]
      have none : rt.sameValue k key = true → valueOf rt hashMap.table.nodes k = none := by
        intro same
        rw [valueOf, Option.map_eq_none_iff, List.find?_eq_none]
        intro node mem here
        have also := rt.trans _ _ _ (rt.symm _ _ same) here
        rw [absent node mem] at also
        cases also
      by_cases same : rt.sameValue k key = true
      · rw [if_pos same, Option.map_none, Option.getD_none, none same]
        rfl
      · rw [if_neg same]
        rfl

omit assigned in
theorem clear : Represents rt (calls ++ [.clear]) hashMap.clear := by
  have empty : (hashMap.clear).table.nodes = [] ∧ (hashMap.clear).size = 0 ∧
      Kept rt (hashMap.clear).table := by
    rw [JSAPIHashMap.clear]
    by_cases counted : 0 < hashMap.size
    · obtain ⟨kept, none⟩ := clear_kept represents.kept
      rw [if_pos counted]
      exact ⟨none, rfl, kept⟩
    · have zero : hashMap.size = 0 := by
        have le := UInt32.le_iff_toNat_le.mp (UInt32.not_lt.mp counted)
        exact UInt32.toNat_inj.mp (Nat.le_zero.mp le)
      have none := represents.size
      rw [zero] at none
      rw [if_neg counted]
      exact ⟨List.eq_nil_of_length_eq_zero none.symm, zero, represents.kept⟩
  obtain ⟨none, zero, kept⟩ := empty
  refine ⟨kept, by rw [none, zero]; rfl, ?_, fun k => ?_⟩
  · rw [none, keysSet_snoc]
    exact List.Perm.refl _
  · rw [none, lastValue_snoc]
    rfl

theorem step {call : MapCall α} (isKey : call.KeyIsValue) (finds : call.FindsKey rt hashMap) :
    ∃ next, call.step rt hashMap = some next ∧ Represents rt (calls ++ [call]) next := by
  cases call with
  | set key value => exact represents.set assigned isKey finds
  | get key | hasKey key =>
    refine ⟨hashMap, rfl, represents.kept, represents.size, ?_, fun k => ?_⟩
    · rw [keysSet_snoc]
      exact represents.keys
    · rw [lastValue_snoc]
      exact represents.values k
  | replace key newValue => exact ⟨_, rfl, represents.replace assigned isKey newValue⟩
  | clear => exact ⟨_, rfl, represents.clear⟩

/-- A `Set` that descends past the node of its key makes the count wrong. -/
theorem set_breaks {next : JSAPIHashMap α} (isKey : key.isHole = false)
    (misses : ¬(MapCall.set key value).FindsKey rt hashMap)
    (run : (MapCall.set key value).step rt hashMap = some next) :
    next.size.toNat ≠ (keysSet rt (calls ++ [.set key value])).length := by
  obtain ⟨isDefined, misses⟩ := not_or.mp misses
  have count := represents.keys.length_eq
  rw [List.length_map, ← represents.size] at count
  have keys : keysSet rt (calls ++ [.set key value]) =
      if (keysSet rt calls).any (rt.sameValue key) then keysSet rt calls else key :: keysSet rt calls := by
    rw [keysSet_snoc, MapCall.addKey, Bool.eq_false_iff.mpr isDefined, Bool.false_or]
  have added {t : TaggedHashArray α}
      (stored : setVal rt hashMap.table (rt.hash key) key value = .ok (t, true)) :
      next.size = hashMap.size + 1 := by
    rw [MapCall.step, JSAPIHashMap.set, if_neg isDefined, stored, ok_bind] at run
    cases grown : grow rt t (hashMap.size + 1) with
    | error e =>
      simp only [if_true, grown] at run
      cases run
    | ok t' =>
      simp only [if_true, grown] at run
      cases run
      rfl
  have wraps : (hashMap.size + 1).toNat = (hashMap.size.toNat + 1) % 2 ^ 32 := UInt32.toNat_add ..
  by_cases found : hashMap.table.isLeftOfEqual rt key = true
  · obtain ⟨t, stored, ⟨node, mem, same⟩, -⟩ :=
      setVal_misses represents.kept assigned isKey value found
    have inside : (keysSet rt calls).any (rt.sameValue key) = true := by
      rw [represents.any_keysSet]
      exact List.any_eq_true.mpr ⟨node, mem, same⟩
    rw [keys, if_pos inside, ← count, added stored, wraps]
    omega
  · have found := Bool.eq_false_iff.mpr found
    obtain ⟨full, absent⟩ := Classical.not_imp.mp (not_and.mp misses found)
    obtain ⟨t, new, run', -, stored⟩ := setVal_stored represents.kept assigned isKey value found
    rw [represents.hasKey_eq assigned isKey] at absent
    have here := represents.any_keysSet key
    rw [Put.any_eq stored, Bool.eq_false_iff.mpr absent] at here
    obtain rfl : new = true := by
      cases new with
      | true => rfl
      | false => cases here
    rw [keys, if_neg absent, added run', full]
    exact nofun

end Represents

theorem represents_new (rt : KeyRuntime α) : Represents rt [] new := by
  have none : (new : JSAPIHashMap α).table.nodes = [] := by
    rw [nodes_eq]
    simp [new, get_create, Bin.nodes]
  refine ⟨create_kept rt, by rw [none]; rfl, ?_, fun k => ?_⟩
  · rw [none]
    exact List.Perm.refl _
  · rw [none]
    rfl

/-- A run keeps the last value of every key, in one node and counted once, in all its states exactly if
    every `Set` finds the node of its key. -/
theorem hashMap_of_run (rt : KeyRuntime α)
    (assigned : ∀ x y, rt.sameValue x y = true → rt.hash x = rt.hash y) (calls : List (MapCall α))
    (keys : ∀ call ∈ calls, call.KeyIsValue) :
    Allowed (MapCall.step rt) (MapCall.FindsKey rt) new calls ↔
      ∀ done rest, calls = done ++ rest → ∃ hashMap, run (MapCall.step rt) new done = some hashMap ∧
        KeepsLast rt done hashMap := by
  have breaks (past : List (MapCall α)) (hashMap : JSAPIHashMap α) (call : MapCall α)
      (next : JSAPIHashMap α) (isKey : call.KeyIsValue) (represents : Represents rt past hashMap)
      (misses : ¬call.FindsKey rt hashMap) (run : call.step rt hashMap = some next) :
      ¬KeepsLast rt (past ++ [call]) next := by
    intro keeps
    cases call with
    | set key value => exact represents.set_breaks assigned isKey misses run keeps.size
    | get key | hasKey key | replace key value | clear => exact misses trivial
  exact allowed_iff_prefixes (fun _ _ represents => represents.keepsLast assigned)
    (fun past hashMap call isKey represents finds => represents.step assigned isKey finds) breaks
    calls [] new keys (represents_new rt)

/-! ### Eight keys with one hash -/

theorem assigned_tens (x y : JSTaggedValue Unit) (same : tens.sameValue x y = true) :
    tens.hash x = tens.hash y := congrArg tens.hash (of_decide_eq_true same)

/-- The keys from 1 to 8, which make their bin a tree, and a second value for one key. -/
def setAgain (key : Int) : List (MapCall Unit) :=
  (List.range 8).map (fun i : Nat => .set (.int (i + 1)) (.int (i + 1))) ++ [.set (.int key) (.int 30)]

theorem keyIsValue_setAgain (key : Int) : ∀ call ∈ setAgain key, call.KeyIsValue := by
  intro call mem
  simp only [setAgain, List.mem_append, List.mem_map, List.mem_singleton] at mem
  obtain ⟨i, -, rfl⟩ | rfl := mem
  · rfl
  · rfl

theorem hashMap_of_run_setAgain : Allowed (MapCall.step tens) (MapCall.FindsKey tens) new (setAgain 4) ↔
    ∀ done rest, setAgain 4 = done ++ rest → ∃ hashMap,
      run (MapCall.step tens) new done = some hashMap ∧ KeepsLast tens done hashMap :=
  hashMap_of_run tens assigned_tens (setAgain 4) (keyIsValue_setAgain 4)

/-- The first key stands on the left of another; its second value goes to a second node, and `Get` still
    gives the first value. -/
theorem hashMap_set_misses : (∀ x y, tens.sameValue x y = true → tens.hash x = tens.hash y) ∧
    (∀ call ∈ setAgain 1, call.KeyIsValue) ∧
    lastValue tens (.int 1) (setAgain 1) = some (.int 30) ∧ (keysSet tens (setAgain 1)).length = 8 ∧
    ∃ hashMap, run (MapCall.step tens) new (setAgain 1) = some hashMap ∧
      hashMap.get tens (.int 1) = .int 1 ∧ hashMap.size = 9 ∧
      ¬DistinctKeys tens hashMap.table.nodes := by
  refine ⟨assigned_tens, keyIsValue_setAgain 1, by decide +kernel, by decide +kernel, ?_⟩
  have facts : ((run (MapCall.step tens) new (setAgain 1)).map fun hashMap =>
      (hashMap.get tens (.int 1), hashMap.size, decide (DistinctKeys tens hashMap.table.nodes))) =
      some (.int 1, 9, false) := by decide +kernel
  obtain ⟨hashMap, reached, same⟩ := Option.map_eq_some_iff.mp facts
  simp only [Prod.mk.injEq, decide_eq_false_iff_not] at same
  exact ⟨hashMap, reached, same⟩

end JSAPIHashMap

end ArkRuntime
