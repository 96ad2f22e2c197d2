import ArkRuntime.TaggedTree.Table

/-!
# `Insert`

A new entry is linked below the node where the search ends, and `InsertRebalance` restores the
balance. Where the key is found instead, the value is written to the table that `GrowCapacity` gave;
`Insert` returns the old one, so in a full array the write is lost.
-/

namespace ArkRuntime

open ColorTree

variable {d : TreeDerived} {α : Type}

/-- The label after `SetValue`. -/
def TreeCell.withValue (d : TreeDerived) (v : JSTaggedValue α) (c : TreeCell α) : TreeCell α :=
  match d with
  | .map => { c with value := v }
  | .set => { c with key := v, value := v }

namespace TaggedTree

/-- `InsertLeftEntry` and `InsertRightEntry` in one. -/
def insertEntry (s : Side) (t : TaggedTree d α) (parentIndex entry : Int)
    (key value : JSTaggedValue α) : TaggedTree d α :=
  let t := t.setKey entry key
  let t := t.setValue entry value
  let t := t.setColor entry .red
  let t := t.setParent entry (.int parentIndex)
  setChild s t parentIndex (.int entry)

section Leaf

variable {t : TaggedTree d α} {f : RBFrame (TreeCell α)} {ctx : List (RBFrame (TreeCell α))}
  {e : Nat} {key value : JSTaggedValue α}

theorem insertBelow_eq {res : ComparisonResult} (side : res = .less ↔ f.side = .left)
    (entry : t.hdr.elements + t.hdr.deleted = e) (parentIndex : Int) (key value : JSTaggedValue α) :
    t.insertBelow parentIndex res key value =
      let t' := insertEntry f.side t parentIndex e key value
      (t'.setNumberOfElements (t'.hdr.elements + 1)).insertRebalance e := by
  simp only [insertBelow, numberOfElements_eq, numberOfDeletedElements_eq, entry]
  by_cases less : res = .less
  · rw [if_neg (by simpa using less), side.mp less]
    rfl
  · have right : f.side = .right := by
      cases hs : f.side with
      | left => exact absurd (side.mpr hs) less
      | right => rfl
    rw [if_pos less, right]
    rfl

theorem hdr_insertEntry (s : Side) (t : TaggedTree d α) (p e : Nat) (key value : JSTaggedValue α) :
    (insertEntry s t p e key value).hdr = t.hdr := by
  simp [insertEntry]

/-- The entries after the new leaf `e` below `p`. -/
theorem cells_insertEntry {s : Side} {p : Nat} (ne : p ≠ e) (setKey : d = .set → value = key)
    (free : (t.cells e).left = .hole ∧ (t.cells e).right = .hole) (i : Nat) :
    (insertEntry s t p e key value).cells i =
      if i = p then (t.cells p).withChild s (.int e)
      else if i = e then nodeRec ⟨e, key, value⟩ true p .left .hole .hole else t.cells i := by
  simp only [insertEntry, cells_setChild, cells_setParent, cells_setColor, cells_setValue,
    cells_setKey, Function.update_idem, Function.update_self, Function.update_apply, if_neg ne]
  by_cases hp : i = p
  · rw [if_pos hp, if_pos hp]
  · rw [if_neg hp, if_neg hp]
    by_cases he : i = e
    · rw [if_pos he, if_pos he]
      cases d with
      | map => simp [TreeNode.withKey, TreeNode.withValue, nodeRec, TreeColor.ofRed, free.1, free.2]
      | set =>
        simp [TreeNode.withKey, TreeNode.withValue, nodeRec, TreeColor.ofRed, free.1, free.2,
          setKey rfl]
    · rw [if_neg he, if_neg he]

/-- The new leaf hangs below the focus. -/
theorem insertEntry_encodes (enc : Encodes t (plug (f :: ctx) .nil))
    (fresh : e ∉ entriesOf (plug (f :: ctx) .nil)) (notHole : key ≠ .hole)
    (setKey : d = .set → value = key)
    (free : (t.cells e).left = .hole ∧ (t.cells e).right = .hole) :
    Encodes (insertEntry f.side t f.a.entry e key value)
      (plug (f :: ctx) (.node .nil true ⟨e, key, value⟩ .nil)) := by
  obtain ⟨hctx, -⟩ := holds_plug.mp enc.holds
  obtain ⟨-, dctx, -⟩ := nodup_plug.mp enc.distinct
  rw [mem_entriesOf_plug] at fresh
  have outer : e ∉ ctxEntries (f :: ctx) := fun h => fresh (.inr h)
  have inCtx : f.a.entry ∈ ctxEntries (f :: ctx) := ctxParent_mem rfl
  have ne : f.a.entry ≠ e := fun h => outer (h ▸ inCtx)
  have cells := cells_insertEntry (s := f.side) ne setKey free
  refine ⟨?_, holds_plug.mpr ⟨?_, ?_⟩, nodup_plug.mpr ⟨?_, dctx, ?_⟩⟩
  · rw [hdr_insertEntry, enc.root]
    exact rootOf_plug_cons f ctx _ _
  · refine hctx.relink dctx ?_ ?_
    · intro i hi notParent
      have hp : i ≠ f.a.entry := fun h => notParent (by rw [h]; rfl)
      have he : i ≠ e := fun h => outer (h ▸ hi)
      rw [cells i, if_neg hp, if_neg he]
    · rintro g rest heq
      cases heq
      rw [cells, if_pos rfl]
      rfl
  · refine ⟨⟨?_, notHole⟩, trivial, trivial⟩
    rw [cells e, if_neg (Ne.symm ne), if_pos rfl]
    rfl
  · simp [entriesOf, toList]
  · simpa [entriesOf, toList] using outer

theorem Storage_leaf {es : List Nat} {p : Nat} {s : Side} (storage : Storage t es) (parent : p ∈ es)
    (setKey : d = .set → value = key) (entry : t.hdr.elements + t.hdr.deleted = e)
    (room : t.hdr.elements + t.hdr.deleted < t.hdr.capacity) :
    Storage ((insertEntry s t p e key value).setNumberOfElements (t.hdr.elements + 1)) (e :: es) := by
  have fresh : e ∉ es := fun h => by have := storage.used e h; omega
  have ne : p ≠ e := fun h => fresh (h ▸ parent)
  have cells := cells_insertEntry (s := s) ne setKey (storage.unused e fresh)
  have same : ∀ i, i ∉ e :: es → (insertEntry s t p e key value).cells i = t.cells i := by
    intro i hi
    rw [List.mem_cons, not_or] at hi
    have hp : i ≠ p := fun h => hi.2 (h ▸ parent)
    rw [cells i, if_neg hp, if_neg hi.1]
  constructor <;> simp only [hdr_setNumberOfElements, hdr_insertEntry, cells_setNumberOfElements,
    List.length_cons, List.mem_cons]
  · rw [storage.elements]
    push_cast
    rfl
  · exact storage.deleted
  · rintro i (rfl | hi)
    · omega
    · have := storage.used i hi
      omega
  · rintro i (rfl | hi)
    · omega
    · exact storage.inside i hi
  · intro i hi
    rw [← List.mem_cons] at hi
    rw [same i hi]
    exact storage.unused i fun h => hi (List.mem_cons_of_mem _ h)
  · exact storage.capacity
  · exact storage.length
  · intro i hi
    rw [same i, storage.outside i hi]
    rw [List.mem_cons]
    rintro (rfl | h)
    · omega
    · have := storage.inside i h
      omega
  · exact storage.below

/-- The end of `Insert`, for a key that is not found. -/
theorem insertBelow_spec {res : ComparisonResult} (table : Table t (plug (f :: ctx) .nil))
    (room : t.hdr.elements + t.hdr.deleted < t.hdr.capacity)
    (side : res = .less ↔ f.side = .left) (notHole : key ≠ .hole) (setKey : d = .set → value = key) :
    ∃ t' T' e, t.insertBelow f.a.entry res key value = some t' ∧ Table t' T' ∧
      T'.toList = labelsBefore (f :: ctx) ++ ⟨e, key, value⟩ :: labelsAfter (f :: ctx) ∧
      t'.hdr = { t.hdr with elements := t.hdr.elements + 1, root := t'.hdr.root } := by
  have size := table.storage.elements
  have deleted := table.storage.deleted
  obtain ⟨e, entry⟩ : ∃ e : Nat, t.hdr.elements + t.hdr.deleted = e :=
    ⟨(t.hdr.elements + t.hdr.deleted).toNat, by omega⟩
  have fresh : e ∉ entriesOf (plug (f :: ctx) .nil) := fun h => by
    have := table.storage.used e h
    omega
  have parent : f.a.entry ∈ entriesOf (plug (f :: ctx) .nil) :=
    mem_entriesOf_plug.mpr (.inr (ctxParent_mem rfl))
  have enc := insertEntry_encodes table.encodes fresh notHole setKey (table.storage.unused e fresh)
  have storage := Storage_leaf (s := f.side) table.storage parent setKey entry room
  rw [← hdr_insertEntry f.side t f.a.entry e key value] at storage
  have run := insertBelow_eq side entry f.a.entry key value
  have hdr := hdr_insertEntry f.side t f.a.entry e key value
  generalize insertEntry f.side t f.a.entry e key value = t1 at enc storage run hdr
  -- the balance around the new red leaf
  obtain ⟨m, balanced⟩ := table.balanced
  obtain ⟨c, n, leaf, around⟩ := balanced.of_plug (.inr fun _ _ => id)
  cases leaf
  have red : Balanced NoneAbsent true 0 (.node .nil true ⟨e, key, value⟩ .nil) := .red id .nil .nil
  have enc' : Encodes (t1.setNumberOfElements (t1.hdr.elements + 1)) _ :=
    Encodes_hdr enc (by simp) (by simp)
  have perm : (entriesOf (plug (f :: ctx) (.node .nil true ⟨e, key, value⟩ .nil))).Perm
      (e :: entriesOf (plug (f :: ctx) .nil)) := by
    refine (entriesOf_plug_perm _ _).trans (List.Perm.cons e ?_)
    exact (entriesOf_plug_perm (f :: ctx) .nil).symm
  have storage' := storage.perm perm
  have fits := storage'.length_le enc'.distinct
  rw [entriesOf, List.length_map] at fits
  obtain ⟨t', T', m', run', rearranged, balanced'⟩ := insertRebalance_spec enc' red around fits
  have entries : entriesOf T' = _ := congrArg (List.map TreeCell.entry) rearranged.labels
  refine ⟨t', T', e, run.trans run', ⟨rearranged.encodes, ⟨m', balanced'⟩, ?_⟩, ?_, ?_⟩
  · rw [entries]
    exact storage'.edits rearranged.edits
  · rw [rearranged.labels, toList_plug]
    simp [toList]
  · rw [rearranged.edits.hdr, hdr_setNumberOfElements, hdr]

end Leaf

/-! ## The first node -/

section Root

variable {t : TaggedTree d α} {key value : JSTaggedValue α}

theorem hdr_setRoot : (t.setRoot 0 key value).hdr = { t.hdr with root := 0 } := by
  have write : t.setRoot 0 key value = ((((t.setKey (0 : Nat) key).setValue (0 : Nat) value).setParent
    (0 : Nat) (.int (-1))).setColor (0 : Nat) .black).setRootEntries 0 := rfl
  rw [write, hdr_setRootEntries, hdr_setColor, hdr_setParent, hdr_setValue, hdr_setKey]

/-- `Insert` where the root key is a Hole: entry 0 becomes the root. -/
theorem insert_empty_hdr (env : CompareEnv α) (storage : Storage t [])
    (empty : t.getRootKey.isHole = true) (notHole : key ≠ .hole) (setKey : d = .set → value = key) :
    ∃ t', t.insert env key value = some (.normal t') ∧
      Table t' (.node .nil false ⟨0, key, value⟩ .nil) ∧
      t'.hdr = { t.hdr with root := 0, elements := 1 } := by
  let t' := (t.setRoot 0 key value).setNumberOfElements ((t.setRoot 0 key value).numberOfElements + 1)
  have free := storage.unused 0 (by simp)
  have cells : ∀ i, t'.cells i =
      if i = 0 then nodeRec ⟨0, key, value⟩ false (-1) .left .hole .hole else t.cells i := by
    intro i
    have write : t'.cells i = ((((t.setKey (0 : Nat) key).setValue (0 : Nat) value).setParent (0 : Nat)
      (.int (-1))).setColor (0 : Nat) .black).cells i := by
      simp only [t', setRoot, cells_setNumberOfElements, cells_setRootEntries]
      rfl
    rw [write]
    simp only [cells_setColor, cells_setParent, cells_setValue, cells_setKey, Function.update_idem,
      Function.update_self, Function.update_apply]
    by_cases hi : i = 0
    · rw [if_pos hi, if_pos hi]
      cases d with
      | map => simp [TreeNode.withKey, TreeNode.withValue, nodeRec, TreeColor.ofRed, free.1, free.2]
      | set =>
        simp [TreeNode.withKey, TreeNode.withValue, nodeRec, TreeColor.ofRed, free.1, free.2,
          setKey rfl]
    · simp only [if_neg hi]
  have hdr : t'.hdr = { t.hdr with root := 0, elements := 1 } := by
    simp only [t', hdr_setNumberOfElements, numberOfElements_eq, hdr_setRoot, storage.elements]
    rfl
  refine ⟨t', ?_, ⟨⟨by rw [hdr]; rfl, ⟨⟨?_, notHole⟩, trivial, trivial⟩, by simp [entriesOf, toList]⟩,
    ⟨1, .black id .nil .nil⟩, ?_⟩, hdr⟩
  · rw [insert, if_pos empty]
  · rw [cells, if_pos rfl]
    rfl
  · have deleted := storage.deleted
    have cap := storage.capacity
    constructor <;> simp only [hdr, entriesOf, toList, List.nil_append, List.map_cons, List.map_nil,
      List.mem_singleton]
    · rfl
    · exact deleted
    · rintro e rfl
      omega
    · rintro e rfl
      omega
    · intro e he
      rw [cells, if_neg he]
      exact storage.unused e (by simp)
    · exact cap
    · exact storage.length
    · intro e he
      rw [cells, if_neg (by omega)]
      exact storage.outside e he
    · exact storage.below

theorem insert_empty (env : CompareEnv α) (storage : Storage t [])
    (empty : t.getRootKey.isHole = true) (notHole : key ≠ .hole) (setKey : d = .set → value = key) :
    ∃ t', t.insert env key value = some (.normal t') ∧
      Table t' (.node .nil false ⟨0, key, value⟩ .nil) ∧ t'.hdr.compare = t.hdr.compare := by
  obtain ⟨t', run, table, hdr⟩ := insert_empty_hdr env storage empty notHole setKey
  exact ⟨t', run, table, by rw [hdr]⟩

end Root

/-! ## A key that is there -/

theorem setValue_table {t : TaggedTree d α} {ctx : List (RBFrame (TreeCell α))}
    {l r : ColorTree (TreeCell α)} {red : Bool} {a : TreeCell α} {value : JSTaggedValue α}
    (table : Table t (plug ctx (.node l red a r))) (notHole : d = .set → value ≠ .hole) :
    Table (t.setValue a.entry value) (plug ctx (.node l red (a.withValue d value) r)) := by
  obtain ⟨-, ⟨here, key⟩, -⟩ := holds_plug.mp table.encodes.holds
  refine relabel_table table (by cases d <;> rfl) ?_ ⟨by simp, fun e he => ?_⟩ (by simp) ?_
  · cases d with
    | map => exact key
    | set => exact notHole rfl
  · rw [cells_setValue, Function.update_of_ne (by simpa using he)]
  · rw [cells_setValue, Function.update_self, here]
    cases d <;> rfl

/-! ## `Insert` as a whole -/

/-- A new key makes `Insert` compact the table. -/
def Compacts (t : TaggedTree d α) : Prop := t.hdr.elements ≠ 0 ∧ Full t ∧ t.hdr.deleted ≠ 0

instance (t : TaggedTree d α) : Decidable (Compacts t) := inferInstanceAs (Decidable (_ ∧ _))

/-- What `Insert` gives, by where the search for the key ends. -/
def InsertResult (t : TaggedTree d α) (key value : JSTaggedValue α) :
    Option (List (RBFrame (TreeCell α)) × ColorTree (TreeCell α)) → Completion (TaggedTree d α) → Prop
  | none, res => res = .abrupt
  | some (ctx, .node l red a r), res =>
      ∃ t', res = .normal t' ∧ (Full t → t' = t) ∧
        (¬ Full t → Table t' (plug ctx (.node l red (a.withValue d value) r)) ∧ t'.hdr = t.hdr)
  | some (ctx, .nil), res =>
      ∃ t' T', res = .normal t' ∧ Table t' T' ∧
        T'.toList.map TreeCell.data = (labelsBefore ctx).map TreeCell.data ++
          (key, value) :: (labelsAfter ctx).map TreeCell.data ∧
        t'.hdr.compare = if Compacts t then .hole else t.hdr.compare

variable {T : ColorTree (TreeCell α)}

/-- Trees with the same keys and values are searched alike. -/
theorem search_data {T' : ColorTree (TreeCell α)} (cmp : KeyCompare α) (key : JSTaggedValue α)
    (same : T'.map TreeCell.data = T.map TreeCell.data) :
    (search (towards cmp key) T' []).map
        (fun s => (s.1.map (RBFrame.map TreeCell.data), s.2.map TreeCell.data)) =
      (search (towards cmp key) T []).map
        (fun s => (s.1.map (RBFrame.map TreeCell.data), s.2.map TreeCell.data)) := by
  let g : JSTaggedValue α × JSTaggedValue α → Option (Option Side) :=
    fun item => towards cmp key ⟨0, item.1, item.2⟩
  have read : ∀ T : ColorTree (TreeCell α), search g (T.map TreeCell.data) [] =
      (search (towards cmp key) T []).map
        (fun s => (s.1.map (RBFrame.map TreeCell.data), s.2.map TreeCell.data)) :=
    fun T => search_map TreeCell.data g T []
  rw [← read T', ← read T, same]

/-- `Insert` from where its search has ended. -/
def insertAt (t : TaggedTree d α) (g : Grown d α) (key value : JSTaggedValue α) :
    Completion InsertPoint → Option (Completion (TaggedTree d α))
  | .abrupt => some .abrupt
  | .normal (.found parentIndex) =>
      some (.normal (if g.fresh then t else g.table.setValue parentIndex value))
  | .normal (.below parentIndex res) => (g.table.insertBelow parentIndex res key value).map .normal

theorem insert_eq {t : TaggedTree d α} {env : CompareEnv α} {key value : JSTaggedValue α}
    {g : Grown d α} {point : Completion InsertPoint} (notEmpty : t.getRootKey.isHole = false)
    (grown : t.growCapacity = some g)
    (run : iter (insertSearchStep env t g.table key) g.table.fuel
      (g.table.getRootEntries, t.getRootKey, .undefined) = some point) :
    t.insert env key value = insertAt t g key value point := by
  simp only [insert, notEmpty, Bool.false_eq_true, if_false, grown, Option.bind_eq_bind,
    Option.bind_some, run]
  cases point with
  | abrupt => rfl
  | normal point => cases point <;> rfl

theorem getRootKey_node {t : TaggedTree d α} {l r : ColorTree (TreeCell α)} {red : Bool} {a : TreeCell α}
    (enc : Encodes t (.node l red a r)) : t.getRootKey = a.key := by
  rw [getRootKey, getRootEntries_eq, enc.root, rootOf, getKey_natCast, enc.holds.1.1, key_nodeRec]

/-- `Insert` into a table with a node: the table that `GrowCapacity` gives, and where the search in it
    ends. -/
theorem insert_point {t : TaggedTree d α} (table : Table t T) (nonempty : T ≠ .nil) (env : CompareEnv α)
    (key value : JSTaggedValue α) :
    ∃ newTree T' point, t.growCapacity = some ⟨newTree, decide (Full t)⟩ ∧ Table newTree T' ∧
      T'.map TreeCell.data = T.map TreeCell.data ∧
      newTree.hdr.elements + newTree.hdr.deleted < newTree.hdr.capacity ∧
      newTree.hdr.compare = (if Compacts t then .hole else t.hdr.compare) ∧
      (¬ Full t → newTree = t ∧ T' = T) ∧
      t.insert env key value = insertAt t ⟨newTree, decide (Full t)⟩ key value point ∧
      PointsAt (search (towards (t.entryCompare env) key) T' []) point := by
  have size := table.storage.elements
  obtain ⟨newTree, T', grown, table', same, room, compare, keep, -⟩ := growCapacity_spec table nonempty
  have some' : t.hdr.elements ≠ 0 := by
    have := length_toList_pos nonempty
    rw [size, entriesOf, List.length_map]
    omega
  have compare' : newTree.hdr.compare = if Compacts t then .hole else t.hdr.compare := by
    simpa only [Compacts, some', ne_eq, not_false_eq_true, true_and] using compare
  cases T with
  | nil => exact absurd rfl nonempty
  | node l red a r =>
    cases T' with
    | nil => simp [ColorTree.map] at same
    | node l' red' a' r' =>
      have rootKey : newTree.getRootKey = t.getRootKey := by
        rw [getRootKey_node table'.encodes, getRootKey_node table.encodes]
        simp only [ColorTree.map, ColorTree.node.injEq, TreeCell.data, Prod.mk.injEq] at same
        exact same.2.2.1.1
      have notEmpty : t.getRootKey.isHole = false := by
        rw [getRootKey_node table.encodes]
        exact JSTaggedValue.isHole_eq_false.mpr table.encodes.holds.1.2
      obtain ⟨point, run, points⟩ := insertSearch_eq env t key
        table'.encodes (by simp) rootKey table'.length_le
      exact ⟨newTree, _, point, grown, table', same, room, compare', keep, insert_eq notEmpty grown run,
        points⟩

/-- The counters after `Insert` of a new key. -/
def Fills (t : TaggedTree d α) :
    Option (List (RBFrame (TreeCell α)) × ColorTree (TreeCell α)) → Completion (TaggedTree d α) → Prop
  | some (_, .nil), .normal t' => fill t' = (fill t).inserted
  | _, _ => True

theorem insert_spec_fill {t : TaggedTree d α} (table : Table t T) (env : CompareEnv α)
    {key value : JSTaggedValue α} (notHole : key ≠ .hole) (setKey : d = .set → value = key) :
    ∃ res, t.insert env key value = some res ∧
      InsertResult t key value (search (towards (t.entryCompare env) key) T []) res ∧
      Fills t (search (towards (t.entryCompare env) key) T []) res := by
  have size := table.storage.elements
  cases T with
  | nil =>
    obtain ⟨t', run, table', hdr⟩ := insert_empty_hdr env table.storage
      ((getRootKey_isHole table.encodes).mpr rfl) notHole setKey
    have noElements : ¬ Compacts t := fun h => h.1 size
    have first : (fill t).inserted = { fill t with elements := 1 } := if_pos size
    refine ⟨.normal t', run, ⟨t', _, rfl, table', rfl, by rw [hdr, if_neg noElements]⟩, ?_⟩
    change fill t' = (fill t).inserted
    rw [first, fill, hdr]
    rfl
  | node l red a r =>
    obtain ⟨newTree, T', point, grown, table', same, room, compare', keep, run, points⟩ :=
      insert_point table (by simp) env key value
    have some' : t.hdr.elements ≠ 0 := by
      rw [size]
      simp only [entriesOf, toList, List.length_map, List.length_append, List.length_cons]
      omega
    cases T' with
    | nil => simp [ColorTree.map] at same
    | node l' red' a' r' =>
      rw [run]
      have alike := search_data (t.entryCompare env) key same
      cases found' : search (towards (t.entryCompare env) key) (.node l' red' a' r') [] with
      | none =>
        rw [found'] at points alike
        have none : search (towards (t.entryCompare env) key) (.node l red a r) [] = none := by
          simpa using alike.symm
        rw [points, none]
        exact ⟨_, rfl, rfl, trivial⟩
      | some focus =>
        obtain ⟨ctx', S'⟩ := focus
        rw [found'] at points alike
        obtain ⟨⟨ctx, S⟩, found, same'⟩ := Option.map_eq_some_iff.mp alike.symm
        simp only [Prod.mk.injEq] at same'
        obtain ⟨sameCtx, sameS⟩ := same'
        rw [found]
        have whole' := plug_of_search found'
        cases S' with
        | node l1 red1 b' r1 =>
          cases S with
          | nil => simp [ColorTree.map] at sameS
          | node l2 red2 b r2 =>
            rw [points]
            refine ⟨_, rfl, ⟨_, rfl, ?_, ?_⟩, trivial⟩
            · intro full
              simp [full]
            · intro notFull
              obtain ⟨sameTable, sameTree⟩ := keep notFull
              rw [sameTree, found] at found'
              simp only [Option.some.injEq, Prod.mk.injEq, ColorTree.node.injEq] at found'
              obtain ⟨-, -, -, rfl, -⟩ := found'
              have focus : Table t (plug ctx (.node l2 red2 b r2)) := by
                rw [plug_of_search found]
                exact table
              simp only [notFull, decide_false, Bool.false_eq_true, if_false, sameTable, hdr_setValue,
                and_true]
              exact setValue_table focus fun h => by rw [setKey h]; exact notHole
        | nil =>
          cases S with
          | node l2 red2 b r2 => simp [ColorTree.map] at sameS
          | nil =>
            cases ctx' with
            | nil => exact points.elim
            | cons f ctx' =>
              obtain ⟨res, rfl, side⟩ := points
              rw [plug] at whole'
              rw [← whole'] at table'
              obtain ⟨t', T'', e, run', table'', labels, hdr⟩ :=
                insertBelow_spec table' room side notHole setKey
              refine ⟨.normal t', ?_, ⟨t', T'', rfl, table'', ?_, ?_⟩, ?_⟩
              · simp only [insertAt, run', Option.map_some]
              · rw [labels, List.map_append, List.map_cons, ← labelsBefore_map, ← labelsAfter_map,
                  ← sameCtx, labelsBefore_map, labelsAfter_map]
                rfl
              · rw [hdr]
                exact compare'
              · change fill t' = (fill t).inserted
                have later : (fill t).inserted = { (fill t).grown with elements := t.hdr.elements + 1 } :=
                  if_neg some'
                have counters := growCapacity_fill table (by simp) grown
                rw [later, ← counters, fill, hdr]
                have elements : newTree.hdr.elements = t.hdr.elements := by
                  have same := congrArg Fill.elements counters
                  rw [Fill.grown] at same
                  split_ifs at same
                  · exact same
                  · exact same
                rw [elements]
                rfl

theorem insert_spec {t : TaggedTree d α} (table : Table t T) (env : CompareEnv α)
    {key value : JSTaggedValue α} (notHole : key ≠ .hole) (setKey : d = .set → value = key) :
    ∃ res, t.insert env key value = some res ∧
      InsertResult t key value (search (towards (t.entryCompare env) key) T []) res := by
  obtain ⟨res, run, result, -⟩ := insert_spec_fill table env notHole setKey
  exact ⟨res, run, result⟩

end TaggedTree

end ArkRuntime
