import ArkRuntime.TaggedTree.Repr

/-!
# Recolouring and rotating

`Encodes t T`: the array `t` encodes the tree `T`. `SetColor` recolours one node of `T`, and the
two rotations turn a node and its child, at any place of the tree. `Edits` says what is left alone:
all header slots but the root, and every entry that is no node of the tree.
-/

namespace ArkRuntime

open ColorTree

variable {d : TreeDerived} {α : Type}

structure Encodes (t : TaggedTree d α) (T : ColorTree (TreeCell α)) : Prop where
  root : t.hdr.root = rootOf T
  holds : Holds t.cells (-1) T
  distinct : (entriesOf T).Nodup

/-- `t'` differs from `t` at most in the root slot and in the entries `es`. -/
structure Edits (es : List Nat) (t t' : TaggedTree d α) : Prop where
  hdr : t'.hdr = { t.hdr with root := t'.hdr.root }
  cells : ∀ e, e ∉ es → t'.cells e = t.cells e

theorem Edits.refl (es : List Nat) (t : TaggedTree d α) : Edits es t t := ⟨rfl, fun _ _ => rfl⟩

theorem Edits.trans {es es' : List Nat} {t t' t'' : TaggedTree d α} (h : Edits es t t')
    (h' : Edits es' t' t'') (sub : ∀ e ∈ es', e ∈ es) : Edits es t t'' := by
  refine ⟨?_, fun e he => ?_⟩
  · rw [h'.hdr, h.hdr]
  · rw [h'.cells e fun hin => he (sub e hin), h.cells e he]

theorem rootOf_plug_cons (f : RBFrame (TreeCell α)) (ctx : List (RBFrame (TreeCell α)))
    (T T' : ColorTree (TreeCell α)) : rootOf (plug (f :: ctx) T) = rootOf (plug (f :: ctx) T') := by
  induction ctx generalizing f T T' with
  | nil => simp [plug, RBFrame.fill]
  | cons g ctx ih => exact ih g _ _

theorem entriesOf_plug_perm (ctx : List (RBFrame (TreeCell α))) (T : ColorTree (TreeCell α)) :
    (entriesOf (plug ctx T)).Perm (entriesOf T ++ ctxEntries ctx) := by
  have := (toList_plug_perm ctx T).map TreeCell.entry
  rwa [List.map_append] at this

/-- The distinctness of the entries, seen from a focus. -/
theorem nodup_plug {ctx : List (RBFrame (TreeCell α))} {T : ColorTree (TreeCell α)} :
    (entriesOf (plug ctx T)).Nodup ↔
      (entriesOf T).Nodup ∧ (ctxEntries ctx).Nodup ∧ ∀ e ∈ entriesOf T, e ∉ ctxEntries ctx := by
  rw [(entriesOf_plug_perm ctx T).nodup_iff, List.nodup_append]
  refine and_congr Iff.rfl (and_congr Iff.rfl ⟨fun h e he hc => h e he e hc rfl, ?_⟩)
  intro h a ha b hb hab
  exact h a ha (hab ▸ hb)

theorem nodup_join {s : Side} {near far : ColorTree (TreeCell α)} {red : Bool} {a : TreeCell α} :
    (entriesOf (join s near red a far)).Nodup ↔
      a.entry ∉ entriesOf near ∧ a.entry ∉ entriesOf far ∧ (entriesOf near).Nodup ∧
      (entriesOf far).Nodup ∧ ∀ e ∈ entriesOf near, e ∉ entriesOf far := by
  have perm := (toList_join_perm s near far red a).map TreeCell.entry
  rw [entriesOf, perm.nodup_iff, List.map_cons, List.map_append, List.nodup_cons, List.mem_append,
    List.nodup_append, not_or]
  simp only [entriesOf]
  constructor
  · rintro ⟨⟨h1, h2⟩, h3, h4, h5⟩
    exact ⟨h1, h2, h3, h4, fun e he hf => h5 e he e hf rfl⟩
  · rintro ⟨h1, h2, h3, h4, h5⟩
    exact ⟨⟨h1, h2⟩, h3, h4, fun e he f hf hef => h5 e he (hef ▸ hf)⟩

theorem mem_entriesOf_join {s : Side} {near far : ColorTree (TreeCell α)} {red : Bool}
    {a : TreeCell α} {e : Nat} :
    e ∈ entriesOf (join s near red a far) ↔
      e = a.entry ∨ e ∈ entriesOf near ∨ e ∈ entriesOf far := by
  have perm := (toList_join_perm s near far red a).map TreeCell.entry
  rw [entriesOf, perm.mem_iff, List.map_cons, List.map_append, List.mem_cons, List.mem_append]
  rfl

theorem mem_entriesOf_plug {ctx : List (RBFrame (TreeCell α))} {T : ColorTree (TreeCell α)} {e : Nat} :
    e ∈ entriesOf (plug ctx T) ↔ e ∈ entriesOf T ∨ e ∈ ctxEntries ctx := by
  rw [(entriesOf_plug_perm ctx T).mem_iff, List.mem_append]

theorem rootOf_mem {T : ColorTree (TreeCell α)} {e : Nat} (h : (e : Int) = rootOf T) :
    e ∈ entriesOf T := by
  cases T with
  | nil => simp only [rootOf] at h; omega
  | node l red a r =>
    simp only [rootOf, Int.natCast_inj] at h
    simp [entriesOf, toList, h]

theorem ctxParent_mem {ctx : List (RBFrame (TreeCell α))} {e : Nat} (h : (e : Int) = ctxParent ctx) :
    e ∈ ctxEntries ctx := by
  cases ctx with
  | nil => simp only [ctxParent] at h; omega
  | cons f ctx =>
    simp only [ctxParent, Int.natCast_inj] at h
    simp [ctxEntries, ctxLabels, h]

/-- Another tree with the same entries is put in the focus, below the same parent. -/
theorem Encodes.replace {t t' : TaggedTree d α} {ctx : List (RBFrame (TreeCell α))}
    {T T' : ColorTree (TreeCell α)} (enc : Encodes t (plug ctx T))
    (edits : Edits (entriesOf T) t t') (root : t'.hdr.root = t.hdr.root)
    (sameRoot : link T' = link T) (holds : Holds t'.cells (ctxParent ctx) T')
    (perm : (entriesOf T').Perm (entriesOf T)) : Encodes t' (plug ctx T') := by
  obtain ⟨hctx, -⟩ := holds_plug.mp enc.holds
  obtain ⟨dT, dctx, apart⟩ := nodup_plug.mp enc.distinct
  refine ⟨?_, holds_plug.mpr ⟨?_, holds⟩, nodup_plug.mpr ⟨?_, dctx, ?_⟩⟩
  · rw [root, enc.root]
    cases ctx with
    | nil => cases T <;> cases T' <;> simp_all [plug, link, rootOf]
    | cons f ctx => exact rootOf_plug_cons f ctx _ _
  · rw [sameRoot]
    exact hctx.congr fun e he => edits.cells e fun hin => apart e hin he
  · exact perm.nodup_iff.mpr dT
  · exact fun e he => apart e (perm.mem_iff.mp he)

namespace TaggedTree

theorem setColor_encodes {t : TaggedTree d α} (ctx : List (RBFrame (TreeCell α))) {s : Side}
    {near far : ColorTree (TreeCell α)} {red : Bool} {a : TreeCell α} (red' : Bool)
    (enc : Encodes t (plug ctx (join s near red a far))) :
    Encodes (t.setColor a.entry (.ofRed red')) (plug ctx (join s near red' a far)) ∧
      Edits [a.entry] t (t.setColor a.entry (.ofRed red')) := by
  have edits : Edits [a.entry] t (t.setColor a.entry (.ofRed red')) := by
    refine ⟨by simp, fun e he => ?_⟩
    rw [cells_setColor, Function.update_of_ne (by simpa using he)]
  refine ⟨?_, edits⟩
  obtain ⟨-, hfocus⟩ := holds_plug.mp enc.holds
  obtain ⟨dfocus, -, -⟩ := nodup_plug.mp enc.distinct
  obtain ⟨anear, afar, -, -, -⟩ := nodup_join.mp dfocus
  obtain ⟨⟨here, key⟩, hnear, hfar⟩ := holds_join.mp hfocus
  refine enc.replace ((Edits.refl _ t).trans edits ?_) (by simp) (by simp) ?_ ?_
  · intro e he
    rw [List.mem_singleton.mp he]
    exact mem_entriesOf_join.mpr (.inl rfl)
  · refine holds_join.mpr ⟨⟨?_, key⟩, hnear.congr ?_, hfar.congr ?_⟩
    · rw [cells_setColor, Function.update_self, here, withColor_nodeRec]
    · intro e he
      exact edits.cells e (by rw [List.mem_singleton]; rintro rfl; exact anear he)
    · intro e he
      exact edits.cells e (by rw [List.mem_singleton]; rintro rfl; exact afar he)
  · exact ((toList_join_perm s near far red' a).trans
      (toList_join_perm s near far red a).symm).map _

/-- `LeftRotate` and `RightRotate` in one: the child at `s.opp` moves up. -/
def rotate (s : Side) (t : TaggedTree d α) (index : Int) : TaggedTree d α :=
  if 0 ≤ index then
    let upper := (getChild s.opp t index).getInt
    let inner := getChild s t upper
    let t := setChild s.opp t index inner
    let t := if inner.isHole then t else t.setParent inner.getInt (.int index)
    let parentOfIndex := t.getParent index
    let t := t.setParent upper (.int parentOfIndex)
    let t :=
      if parentOfIndex < 0 then
        t.setRootEntries upper
      else
        let child := getChild s t parentOfIndex
        if child.isHole = false ∧ child.getInt = index then
          setChild s t parentOfIndex (.int upper)
        else
          setChild s.opp t parentOfIndex (.int upper)
    let t := setChild s t upper (.int index)
    t.setParent index (.int upper)
  else
    t

/-- `SetParent` on the entry a link names. -/
theorem cells_setParent_link (t : TaggedTree d α) (T : ColorTree (TreeCell α)) (x : Nat) (e : Nat) :
    (if (link T).isHole then t else t.setParent (link T).getInt (.int x)).cells e =
      if (e : Int) = rootOf T then { t.cells e with parent := .int x } else t.cells e := by
  cases T with
  | nil => simp [link, rootOf]
  | node l red a r =>
    simp only [link, JSTaggedValue.isHole_int, Bool.false_eq_true, if_false, JSTaggedValue.getInt_int,
      cells_setParent, rootOf, Int.natCast_inj, Function.update_apply]
    split_ifs with h <;> simp [h]

theorem hdr_setParent_link (t : TaggedTree d α) (T : ColorTree (TreeCell α)) (x : Nat) :
    (if (link T).isHole then t else t.setParent (link T).getInt (.int x)).hdr = t.hdr := by
  cases T <;> simp [link]

/-- The write to the parent of the turned node, or to the root slot. -/
theorem rotate_relink {t : TaggedTree d α} {s : Side} {l : JSTaggedValue α}
    {ctx : List (RBFrame (TreeCell α))} (x y : Nat) (hctx : HoldsCtx t.cells l ctx) (hl : l = .int x)
    (apart : ∀ f rest, ctx = f :: rest → link f.sibling ≠ .int x) :
    let t' : TaggedTree d α :=
      if ctxParent ctx < 0 then
        t.setRootEntries y
      else
        let child := getChild s t (ctxParent ctx)
        if child.isHole = false ∧ child.getInt = x then setChild s t (ctxParent ctx) (.int y)
        else setChild s.opp t (ctxParent ctx) (.int y)
    t'.hdr = { t.hdr with root := if ctx = [] then y else t.hdr.root } ∧
    (∀ e : Nat, (e : Int) ≠ ctxParent ctx → t'.cells e = t.cells e) ∧
    (∀ f rest, ctx = f :: rest →
      t'.cells f.a.entry = (t.cells f.a.entry).withChild f.side (.int y)) := by
  intro t'
  cases ctx with
  | nil => simp [t', ctxParent]
  | cons f ctx =>
    obtain ⟨⟨here, -⟩, -, -⟩ := hctx
    have side : t' = setChild f.side t f.a.entry (.int y) := by
      have nonneg : ¬ ((f.a.entry : Int) < 0) := by omega
      by_cases hs : f.side = s
      · subst hs
        simp [t', ctxParent, nonneg, here, hl]
      · have other : s = f.side.opp := Side.eq_opp_of_ne (Ne.symm hs)
        have ne := apart f ctx rfl
        have notThis : ¬ ((link f.sibling).isHole = false ∧ (link f.sibling).getInt = (x : Int)) := by
          rintro ⟨hole, eq⟩
          cases hsib : f.sibling <;> simp_all [link]
        simp only [t', ctxParent, if_neg nonneg, getChild_natCast, here, other, child_opp_nodeRec,
          if_neg notThis, Side.opp_opp]
    rw [side]
    refine ⟨by simp, ?_, ?_⟩
    · intro e he
      rw [cells_setChild, Function.update_of_ne fun heq => he (by rw [heq]; rfl)]
    · rintro g rest heq
      cases heq
      rw [cells_setChild, Function.update_self]

/-- The sibling of a focus is not a node that lies elsewhere. -/
theorem link_sibling_ne {f : RBFrame (TreeCell α)} {tail : List (RBFrame (TreeCell α))} {x : Nat}
    (out : x ∉ ctxEntries (f :: tail)) : link f.sibling ≠ .int x := by
  intro hlink
  refine out ?_
  simp only [ctxEntries, ctxLabels, List.cons_append, List.map_cons, List.map_append,
    List.mem_cons, List.mem_append]
  refine .inr (.inl ?_)
  cases hs : f.sibling with
  | nil => simp [hs, link] at hlink
  | node l red z r =>
    simp only [hs, link, JSTaggedValue.int.injEq, Int.natCast_inj] at hlink
    simp [toList, hlink]

/-- What a rotation writes: the two turned nodes, the parent of the tree between them and the link to them. -/
structure Rotated (s : Side) (ctx : List (RBFrame (TreeCell α))) (a b c : ColorTree (TreeCell α))
    (cx cy : Bool) (x y : TreeCell α) (t t' : TaggedTree d α) : Prop where
  hdr : t'.hdr = { t.hdr with root := if ctx = [] then y.entry else t.hdr.root }
  upper : t'.cells y.entry = nodeRec y cy (ctxParent ctx) s (.int x.entry) (link c)
  lower : t'.cells x.entry = nodeRec x cx y.entry s (link a) (link b)
  between : ∀ e ∈ entriesOf b, t'.cells e =
    if (e : Int) = rootOf b then { t.cells e with parent := .int x.entry } else t.cells e
  above : ∀ e ∈ ctxEntries ctx, (e : Int) ≠ ctxParent ctx → t'.cells e = t.cells e
  relinked : ∀ f tail, ctx = f :: tail →
    t'.cells f.a.entry = (t.cells f.a.entry).withChild f.side (.int y.entry)
  rest : ∀ e, e ≠ x.entry → e ≠ y.entry → e ∉ entriesOf b → e ∉ ctxEntries ctx → t'.cells e = t.cells e

theorem rotate_rotated {t : TaggedTree d α} {ctx : List (RBFrame (TreeCell α))} {s : Side}
    {a b c : ColorTree (TreeCell α)} {cx cy : Bool} {x y : TreeCell α}
    (hx : t.cells x.entry = nodeRec x cx (ctxParent ctx) s (link a) (.int y.entry))
    (hy : t.cells y.entry = nodeRec y cy x.entry s (link b) (link c))
    (hctx : HoldsCtx t.cells (.int x.entry) ctx) (xy : x.entry ≠ y.entry) (xb : x.entry ∉ entriesOf b)
    (yb : y.entry ∉ entriesOf b) (xOut : x.entry ∉ ctxEntries ctx) (yOut : y.entry ∉ ctxEntries ctx)
    (apart : ∀ e ∈ entriesOf b, e ∉ ctxEntries ctx) :
    Rotated s ctx a b c cx cy x y t (rotate s t x.entry) := by
  -- the rotation, one write after the other
  let t1 := setChild s.opp t x.entry (link b)
  let t2 := if (link b).isHole then t1 else t1.setParent (link b).getInt (.int x.entry)
  let t3 := t2.setParent y.entry (.int (ctxParent ctx))
  let t4 : TaggedTree d α :=
    if ctxParent ctx < 0 then t3.setRootEntries y.entry
    else
      let child := getChild s t3 (ctxParent ctx)
      if child.isHole = false ∧ child.getInt = x.entry then
        setChild s t3 (ctxParent ctx) (.int y.entry)
      else setChild s.opp t3 (ctxParent ctx) (.int y.entry)
  let t5 := setChild s t4 y.entry (.int x.entry)
  let t6 := t5.setParent x.entry (.int y.entry)
  have hb2 : ∀ e, t2.cells e =
      if (e : Int) = rootOf b then { t1.cells e with parent := .int x.entry } else t1.cells e :=
    cells_setParent_link t1 b x.entry
  have xNotB : ¬ ((x.entry : Int) = rootOf b) := fun h => xb (rootOf_mem h)
  have parentX : t2.getParent x.entry = ctxParent ctx := by
    rw [getParent_natCast, hb2, if_neg xNotB, cells_setChild, Function.update_self, hx]
    simp
  have same : rotate s t x.entry = t6 := by
    have nonneg : (0 : Int) ≤ x.entry := by omega
    simp only [rotate, if_pos nonneg, getChild_natCast, hx, child_opp_nodeRec,
      JSTaggedValue.getInt_int, hy, child_nodeRec]
    show _ = t6
    simp only [t6, t5, t4, t3, ← parentX]
    rfl
  rw [same]
  -- what each write leaves alone
  have h₁ : ∀ e, e ≠ x.entry → t1.cells e = t.cells e := by
    intro e he
    rw [cells_setChild, Function.update_of_ne he]
  have h₂ : ∀ e, e ≠ x.entry → e ∉ entriesOf b → t2.cells e = t.cells e := by
    intro e he hbe
    rw [hb2, if_neg fun h => hbe (rootOf_mem h), h₁ e he]
  have h₃ : ∀ e, e ≠ y.entry → t3.cells e = t2.cells e := by
    intro e he
    rw [cells_setParent, Function.update_of_ne he]
  have h6 : ∀ e, e ≠ x.entry → e ≠ y.entry → t6.cells e = t4.cells e := by
    intro e hex hey
    rw [cells_setParent, Function.update_of_ne hex, cells_setChild, Function.update_of_ne hey]
  have outer : ∀ e ∈ ctxEntries ctx, e ≠ x.entry ∧ e ≠ y.entry ∧ t3.cells e = t.cells e := by
    intro e he
    have hx' : e ≠ x.entry := by rintro rfl; exact xOut he
    have hy' : e ≠ y.entry := by rintro rfl; exact yOut he
    refine ⟨hx', hy', ?_⟩
    rw [h₃ e hy', h₂ e hx' fun hbe => apart e hbe he]
  have inside : ∀ e, e ∉ ctxEntries ctx → (e : Int) ≠ ctxParent ctx :=
    fun e he h => he (ctxParent_mem h)
  have hctx3 : HoldsCtx t3.cells (.int x.entry) ctx := hctx.congr fun e he => (outer e he).2.2
  obtain ⟨hdr4, keep4, link4⟩ : t4.hdr = _ ∧ _ ∧ _ :=
    rotate_relink (s := s) x.entry y.entry hctx3 rfl fun f tail same => link_sibling_ne (same ▸ xOut)
  have hdr3 : t3.hdr = t.hdr := by
    rw [hdr_setParent, show t2.hdr = t1.hdr from hdr_setParent_link t1 b x.entry, hdr_setChild]
  have at2y : t2.cells y.entry = t.cells y.entry := h₂ _ (Ne.symm xy) yb
  refine ⟨?_, ?_, ?_, fun e he => ?_, fun e he hne => ?_, fun f tail heq => ?_, fun e hex hey hbe hce => ?_⟩
  · rw [hdr_setParent, hdr_setChild, hdr4, hdr3]
  · rw [cells_setParent, Function.update_of_ne (Ne.symm xy), cells_setChild, Function.update_self,
      keep4 _ (inside _ yOut), cells_setParent, Function.update_self, at2y, hy,
      withParent_nodeRec, withChild_nodeRec]
  · rw [cells_setParent, Function.update_self, cells_setChild, Function.update_of_ne xy,
      keep4 _ (inside _ xOut), h₃ _ xy, hb2, if_neg xNotB, cells_setChild, Function.update_self, hx,
      withChild_opp_nodeRec, withParent_nodeRec]
  · have hex : e ≠ x.entry := by rintro rfl; exact xb he
    have hey : e ≠ y.entry := by rintro rfl; exact yb he
    rw [h6 e hex hey, keep4 e (inside e (apart e he)), h₃ e hey, hb2, h₁ e hex]
  · obtain ⟨hex, hey, h⟩ := outer e he
    rw [h6 e hex hey, keep4 e hne, h]
  · obtain ⟨hex, hey, h⟩ := outer f.a.entry (ctxParent_mem (by rw [heq]; rfl))
    rw [h6 _ hex hey, link4 f tail heq, h]
  · rw [h6 e hex hey, keep4 e (inside e hce), h₃ e hey, h₂ e hex hbe]

/-- A rotation at any place of the tree. -/
theorem rotate_encodes {t : TaggedTree d α} {ctx : List (RBFrame (TreeCell α))} {s : Side}
    {a b c : ColorTree (TreeCell α)} {cx cy : Bool} {x y : TreeCell α}
    (enc : Encodes t (plug ctx (join s a cx x (join s b cy y c)))) :
    Encodes (rotate s t x.entry) (plug ctx (join s (join s a cx x b) cy y c)) ∧
      Edits (entriesOf (plug ctx (join s a cx x (join s b cy y c)))) t (rotate s t x.entry) := by
  obtain ⟨hctx, hfocus⟩ := holds_plug.mp enc.holds
  obtain ⟨dfocus, dctx, apart⟩ := nodup_plug.mp enc.distinct
  obtain ⟨⟨hx, kx⟩, ha, hright⟩ := holds_join.mp hfocus
  obtain ⟨⟨hy, ky⟩, hb, hc⟩ := holds_join.mp hright
  rw [link_join] at hx hctx
  obtain ⟨xa, xr, da, dr, ar⟩ := nodup_join.mp dfocus
  obtain ⟨yb, yc, db, dc, bc⟩ := nodup_join.mp dr
  simp only [mem_entriesOf_join, not_or] at xr ar apart
  obtain ⟨xy, xb, xc⟩ := xr
  have turned := rotate_rotated hx hy hctx xy xb yb (apart _ (.inl rfl)) (apart _ (.inr (.inr (.inl rfl))))
    fun e he => apart e (.inr (.inr (.inr (.inl he))))
  -- the three trees below the turned nodes
  have ha' : Holds (rotate s t x.entry).cells x.entry a := by
    refine ha.congr fun e he => turned.rest e ?_ ?_ ?_ ?_
    · rintro rfl; exact xa he
    · rintro rfl; exact (ar _ he).1 rfl
    · exact (ar e he).2.1
    · exact apart e (.inr (.inl he))
  have hb' : Holds (rotate s t x.entry).cells x.entry b := hb.reparent db turned.between
  have hc' : Holds (rotate s t x.entry).cells y.entry c := by
    refine hc.congr fun e he => turned.rest e ?_ ?_ ?_ ?_
    · rintro rfl; exact xc he
    · rintro rfl; exact yc he
    · exact fun hbe => bc e hbe he
    · exact apart e (.inr (.inr (.inr (.inr he))))
  have hctx' : HoldsCtx (rotate s t x.entry).cells (.int y.entry) ctx :=
    hctx.relink dctx turned.above turned.relinked
  refine ⟨⟨?_, holds_plug.mpr ⟨by rwa [link_join], holds_join.mpr ⟨⟨by rw [link_join]; exact turned.upper, ky⟩,
    holds_join.mpr ⟨⟨turned.lower, kx⟩, ha', hb'⟩, hc'⟩⟩, ?_⟩, ?_, ?_⟩
  · rw [turned.hdr]
    cases ctx with
    | nil => simp [plug]
    | cons f ctx =>
      simp only [reduceCtorEq, if_false, enc.root]
      exact rootOf_plug_cons f ctx _ _
  · have perm : (plug ctx (join s (join s a cx x b) cy y c)).toList =
        (plug ctx (join s a cx x (join s b cy y c))).toList := by
      rw [toList_plug, toList_plug, toList_rotate]
    simpa only [entriesOf, perm] using enc.distinct
  · rw [turned.hdr]
  · intro e he
    simp only [mem_entriesOf_plug, mem_entriesOf_join, not_or] at he
    exact turned.rest e he.1.1 he.1.2.2.1 he.1.2.2.2.1 he.2

end TaggedTree

end ArkRuntime
