import LeastSquares.Proofs.Value.Stack
import LeastSquares.Factor.Basic

/-!
# Factors as rows

The frame of a factor is what is left when its indices and the leaves of its fields are forgotten.
Factors that could be stacked have one frame, which is that of the stack, and each leaf of the stack
is the stack of the leaves in its place. If these have one kind in every place, the rows of the stack
are the factors.
-/

namespace LeastSquares.Factor

section Frames

variable {C β γ δ : Type}

/-- The class, the variable types and the skeletons of the fields. -/
def frame {ι : Type} (f : Factor C ι β) : FactorClass C × List VariableType × List (Tree Unit) :=
  (f.kind, f.types, f.fields.map Tree.skeleton)

theorem leaves_eq (f : Factor C β β) :
    f.leaves = f.handles.map (·.index) ++ Tree.leaves.all f.fields := by
  rw [leaves, Tree.leaves_all_eq]

theorem length_handles_eq {ι κ : Type} {e : Factor C ι β} {f : Factor C κ γ}
    (h : e.frame = f.frame) : e.handles.length = f.handles.length := by
  have htypes : e.types.length = f.types.length :=
    congrArg (fun frame => frame.2.1.length) h
  simpa [types] using htypes

theorem length_leaves_eq {e : Factor C β β} {f : Factor C γ γ} (h : e.frame = f.frame) :
    e.leaves.length = f.leaves.length := by
  have hfields := Tree.length_leaves_all (congrArg (fun frame => frame.2.2) h)
  rw [leaves_eq, leaves_eq, List.length_append, List.length_append, hfields, List.length_map,
    List.length_map, length_handles_eq h]

theorem outlines_of_frame {ι κ : Type} {e : Factor C ι β} {f : Factor C κ γ}
    (h : e.frame = f.frame) : e.outlines = f.outlines := by
  have hskeletons : e.fields.map Tree.skeleton = f.fields.map Tree.skeleton := congrArg (·.2.2) h
  rw [outlines, outlines, ← List.forall₂_eq_eq_eq, List.forall₂_map_left_iff,
    List.forall₂_map_right_iff]
  rw [← List.forall₂_eq_eq_eq, List.forall₂_map_left_iff, List.forall₂_map_right_iff] at hskeletons
  exact hskeletons.imp fun _ _ hst => Tree.outline_eq_of_skeleton hst

theorem handles_eq {ι : Type} (f : Factor C ι β) :
    f.handles = (f.types.zip (f.handles.map (·.index))).map fun (t, i) => ⟨t, i⟩ := by
  simp [types, List.zip_map', Function.comp_def]

/-- Factors of one frame that have the same leaves are the same. -/
theorem eq_of_leaves {e f : Factor C β β} (h : e.frame = f.frame) (hleaves : e.leaves = f.leaves) :
    e = f := by
  have hkind : e.kind = f.kind := congrArg (·.1) h
  have htypes : e.types = f.types := congrArg (·.2.1) h
  rw [leaves_eq, leaves_eq] at hleaves
  obtain ⟨hindices, hfields⟩ := List.append_inj hleaves (by simpa using length_handles_eq h)
  have hfields := Tree.eq_of_leaves_all _ _ (congrArg (·.2.2) h) hfields
  have hhandles : e.handles = f.handles := by
    rw [handles_eq e, handles_eq f, htypes, hindices]
  cases e
  cases f
  simp_all

theorem frame_map (g : β → γ) (f : Factor C β β) : (f.map g g).frame = f.frame := by
  simp [frame, map, types, Function.comp_def]

theorem leaves_map (g : β → γ) (f : Factor C β β) : (f.map g g).leaves = f.leaves.map g := by
  simp [leaves, map, List.flatMap_map, List.map_flatMap, Tree.leaves_map, Function.comp_def]

/-! ## Combining and traversing -/

theorem mapM_zip? {g : β → γ → Option δ} {cs : List (Tree β)} {ds : List (Tree γ)}
    (h : cs.length = ds.length) :
    ((cs.zip ds).mapM fun (s, t) => s.zip? g t) = Tree.zip?.all g cs ds := by
  induction cs generalizing ds with
  | nil =>
    obtain rfl : ds = [] := List.length_eq_zero_iff.1 h.symm
    rfl
  | cons c cs ih =>
    cases ds with
    | nil => cases h
    | cons d ds =>
      rw [List.zip_cons_cons, List.mapM_cons, ih (by simpa using h)]
      rfl

theorem mapM_traverse {g : β → Option γ} (cs : List (Tree β)) :
    cs.mapM (Tree.traverse g) = Tree.traverse.all g cs := by
  induction cs with
  | nil => rfl
  | cons c cs ih =>
    rw [List.mapM_cons, ih]
    rfl

/-- Two handles combined in their indices. -/
def zipHandle? (g : β → γ → Option δ) (p : Handle β × Handle γ) : Option (Handle δ) := do
  return ⟨p.1.type, ← g p.1.index p.2.index⟩

theorem mapM_zipHandle? {g : β → γ → Option δ} {hs : List (Handle β)} {ks : List (Handle γ)}
    {us : List (Handle δ)} (hlength : hs.length = ks.length)
    (h : (hs.zip ks).mapM (zipHandle? g) = some us) :
    us.map (·.type) = hs.map (·.type) ∧ List.Forall₂ (fun p d => g p.1 p.2 = some d)
      ((hs.map (·.index)).zip (ks.map (·.index))) (us.map (·.index)) := by
  have hspec := forall₂_of_mapM h
  clear h
  induction hs generalizing ks us with
  | nil =>
    cases hspec
    exact ⟨rfl, .nil⟩
  | cons a hs ih =>
    cases ks with
    | nil => cases hlength
    | cons b ks =>
      cases hspec with
      | @cons _ u _ us hu hspec =>
        obtain ⟨index, hindex, rfl⟩ : ∃ index, g a.index b.index = some index ∧
            ⟨a.type, index⟩ = u := by
          simpa [zipHandle?, Option.bind_eq_some_iff] using hu
        obtain ⟨htypes, hindices⟩ := ih (by simpa using hlength) hspec
        exact ⟨congrArg (a.type :: ·) htypes, .cons hindex hindices⟩

theorem zip?_spec [DecidableEq C] {g : β → γ → Option δ} {e : Factor C β β} {f : Factor C γ γ}
    {u : Factor C δ δ} (h : e.zip? g f = some u) :
    f.frame = e.frame ∧ u.frame = e.frame ∧
      List.Forall₂ (fun p d => g p.1 p.2 = some d) (e.leaves.zip f.leaves) u.leaves := by
  unfold zip? at h
  split at h
  next hsame =>
    obtain ⟨hkind, htypes, hlength⟩ := hsame
    have hhandleslength : e.handles.length = f.handles.length := by
      simpa [types] using congrArg List.length htypes
    obtain ⟨handles, hhandles, h⟩ := Option.bind_eq_some_iff.1 h
    obtain ⟨fields, hfields, h⟩ := Option.bind_eq_some_iff.1 h
    obtain rfl := Option.some.inj h
    rw [mapM_zip? hlength] at hfields
    obtain ⟨htypes', hindices⟩ := mapM_zipHandle? hhandleslength hhandles
    obtain ⟨hskeleton, hskeleton', hleaves⟩ := Tree.zip?_all_spec _ hfields
    refine ⟨?_, ?_, ?_⟩
    · simp only [frame, hkind, htypes, hskeleton]
    · simp only [frame, hskeleton', Prod.mk.injEq, and_true, true_and]
      exact htypes'
    · rw [leaves_eq, leaves_eq, leaves_eq, List.zip_append (by simpa using hhandleslength)]
      exact List.rel_append hindices hleaves
  next => cases h

theorem mapM_handle {g : β → Option γ} {hs : List (Handle β)} {us : List (Handle γ)}
    (h : (hs.mapM fun a => do return (⟨a.type, ← g a.index⟩ : Handle γ)) = some us) :
    us.map (·.type) = hs.map (·.type) ∧
      List.Forall₂ (fun b c => g b = some c) (hs.map (·.index)) (us.map (·.index)) := by
  have hspec := forall₂_of_mapM h
  clear h
  induction hspec with
  | nil => exact ⟨rfl, .nil⟩
  | @cons a u _ _ hu _ ih =>
    obtain ⟨index, hindex, h⟩ := Option.bind_eq_some_iff.1 hu
    obtain rfl := Option.some.inj h
    exact ⟨congrArg (a.type :: ·) ih.1, .cons hindex ih.2⟩

theorem traverse_spec {g : β → Option γ} {f : Factor C β β} {u : Factor C γ γ}
    (h : f.traverse g g = some u) :
    u.frame = f.frame ∧ List.Forall₂ (fun b c => g b = some c) f.leaves u.leaves := by
  obtain ⟨handles, hhandles, h⟩ := Option.bind_eq_some_iff.1 h
  obtain ⟨fields, hfields, h⟩ := Option.bind_eq_some_iff.1 h
  obtain rfl := Option.some.inj h
  rw [mapM_traverse] at hfields
  obtain ⟨htypes, hindices⟩ := mapM_handle hhandles
  obtain ⟨hskeleton, hleaves⟩ := Tree.traverse_all_spec _ hfields
  refine ⟨?_, ?_⟩
  · simp only [frame, hskeleton, Prod.mk.injEq, and_true, true_and]
    exact htypes
  · rw [leaves_eq, leaves_eq]
    exact List.rel_append hindices hleaves

theorem zip?_ok [DecidableEq C] {g : β → γ → Option δ} {e : Factor C β β} {f : Factor C γ γ}
    (h : f.frame = e.frame) (hg : ∀ p ∈ e.leaves.zip f.leaves, ∃ d, g p.1 p.2 = some d) :
    ∃ u, e.zip? g f = some u := by
  have htypes : e.types = f.types := congrArg (·.2.1) h.symm
  have hskeleton : f.fields.map Tree.skeleton = e.fields.map Tree.skeleton := congrArg (·.2.2) h
  have hlength : e.fields.length = f.fields.length := by
    simpa using (congrArg List.length hskeleton).symm
  rw [leaves_eq, leaves_eq, List.zip_append (by simpa using length_handles_eq h.symm)] at hg
  obtain ⟨handles, hhandles⟩ := exists_mapM (f := zipHandle? g) (l := e.handles.zip f.handles) (by
    intro p hp
    obtain ⟨d, hd⟩ := hg (p.1.index, p.2.index) (List.mem_append_left _ (by
      rw [List.zip_map]
      exact List.mem_map_of_mem (f := Prod.map (·.index) (·.index)) hp))
    exact ⟨⟨p.1.type, d⟩, by simp [zipHandle?, hd]⟩)
  obtain ⟨fields, hfields⟩ := Tree.zip?_all_ok e.fields hskeleton fun p hp =>
    hg p (List.mem_append_right _ hp)
  refine ⟨⟨e.kind, handles, fields⟩, ?_⟩
  rw [zip?, if_pos ⟨congrArg (·.1) h.symm, htypes, hlength⟩, mapM_zip? hlength, hfields]
  exact congrArg (fun x : Option (List (Handle δ)) => x >>= fun handles =>
    some (⟨e.kind, handles, fields⟩ : Factor C δ δ)) hhandles

theorem traverse_ok {g : β → Option γ} {f : Factor C β β} (h : ∀ b ∈ f.leaves, ∃ c, g b = some c) :
    ∃ u, f.traverse g g = some u := by
  rw [leaves_eq] at h
  obtain ⟨handles, hhandles⟩ := exists_mapM (l := f.handles)
    (f := fun a => do return (⟨a.type, ← g a.index⟩ : Handle γ)) (by
      intro a ha
      obtain ⟨c, hc⟩ := h a.index (List.mem_append_left _ (List.mem_map_of_mem ha))
      exact ⟨⟨a.type, c⟩, by simp [hc]⟩)
  obtain ⟨fields, hfields⟩ := Tree.traverse_all_ok f.fields fun b hb =>
    h b (List.mem_append_right _ hb)
  refine ⟨⟨f.kind, handles, fields⟩, ?_⟩
  rw [traverse, hhandles, mapM_traverse, hfields]
  rfl

end Frames

/-! ## Stacks -/

section Stacks

variable {C α : Type} [DecidableEq C] [Scalar α]

/-- Leaf `p` of a factor. -/
def leafAt (f : FactorStack C α) (p : Nat) : Block α := f.leaves.getD p (.int 0)

omit [DecidableEq C] [Scalar α] in
theorem leafAt_eq {f : FactorStack C α} {p : Nat} (hp : p < f.leaves.length) :
    f.leafAt p = f.leaves[p] := by
  rw [leafAt, List.getD_eq_getElem _ _ hp]

/-- The leaves of some factors place by place, each from the last factor to the first. -/
def Gathers (f : FactorStack C α) (rows : List (FactorStack C α))
    (columns : Factor C (List (Block α)) (List (Block α))) : Prop :=
  columns.frame = f.frame ∧ columns.leaves =
    (List.range f.leaves.length).map fun p => (rows.map (·.leafAt p)).reverse

omit [DecidableEq C] [Scalar α] in
theorem gathers_first (f : FactorStack C α) : Gathers f [f] (f.map (fun b => [b]) fun b => [b]) := by
  refine ⟨frame_map .., ?_⟩
  rw [leaves_map]
  refine List.ext_getElem (by simp) fun p hp _ => ?_
  have hp : p < f.leaves.length := by simpa using hp
  simp [leafAt_eq hp]

omit [Scalar α] in
theorem Gathers.next {f g : FactorStack C α} {rows : List (FactorStack C α)}
    {columns next : Factor C (List (Block α)) (List (Block α))} (h : Gathers f rows columns)
    (hnext : columns.zip? (fun bs b => some (b :: bs)) g = some next) :
    g.frame = f.frame ∧ Gathers f (rows ++ [g]) next := by
  obtain ⟨hframe, hnextframe, hleaves⟩ := zip?_spec hnext
  have hleaves := eq_map_of_forall₂ (hleaves.imp fun _ _ h => Option.some.inj h)
  have hlength : g.leaves.length = f.leaves.length := length_leaves_eq (hframe.trans h.1)
  refine ⟨hframe.trans h.1, hnextframe.trans h.1, ?_⟩
  rw [hleaves, h.2]
  refine List.ext_getElem (by simp [hlength]) fun p hp _ => ?_
  have hp : p < g.leaves.length := by simpa [hlength] using hp
  simp [leafAt_eq hp]

omit [Scalar α] in
theorem gathers_rows {f : FactorStack C α} {rest done : List (FactorStack C α)}
    {columns last : Factor C (List (Block α)) (List (Block α))} (h : Gathers f done columns)
    (hframes : ∀ g ∈ done, g.frame = f.frame)
    (hfold : rest.foldlM (zip? fun bs b => some (b :: bs)) columns = some last) :
    (∀ g ∈ done ++ rest, g.frame = f.frame) ∧ Gathers f (done ++ rest) last := by
  induction rest generalizing done columns with
  | nil =>
    obtain rfl : columns = last := by simpa using hfold
    simpa using ⟨hframes, h⟩
  | cons g rest ih =>
    rw [List.foldlM_cons] at hfold
    obtain ⟨next, hnext, hfold⟩ := Option.bind_eq_some_iff.1 hfold
    obtain ⟨hframe, hgathers⟩ := h.next hnext
    have hrest := ih hgathers (by
      intro k hk
      rcases List.mem_append.1 hk with hk | hk
      · exact hframes k hk
      · rw [List.mem_singleton.1 hk, hframe]) hfold
    simpa using hrest

/-- Each leaf of a stack is the stack of the leaves in its place. -/
theorem stack?_spec {fs : List (FactorStack C α)} {F : FactorStack C α} (h : stack? fs = some F) :
    fs ≠ [] ∧ (∀ f ∈ fs, f.frame = F.frame) ∧
      ∀ p, p < F.leaves.length → Block.stack? (fs.map (·.leafAt p)) = some (F.leafAt p) := by
  cases fs with
  | nil => cases h
  | cons f rest =>
    obtain ⟨columns, hcolumns, htraverse⟩ := Option.bind_eq_some_iff.1 h
    obtain ⟨hframes, hframe, hleaves⟩ :=
      gathers_rows (gathers_first f) (List.forall_mem_singleton.2 rfl) hcolumns
    obtain ⟨hFframe, hFleaves⟩ := traverse_spec htraverse
    have hF : F.frame = f.frame := hFframe.trans hframe
    have hlength : F.leaves.length = f.leaves.length := length_leaves_eq hF
    refine ⟨by simp, fun g hg => (hframes g hg).trans hF.symm, fun p hp => ?_⟩
    have hget := hFleaves.get (by rw [hleaves]; simpa [hlength] using hp) hp
    rw [leafAt_eq hp]
    simpa [hleaves] using hget

omit [Scalar α] in
theorem exists_columns {f : FactorStack C α} {rest done : List (FactorStack C α)}
    {columns : Factor C (List (Block α)) (List (Block α))} (h : Gathers f done columns)
    (hframes : ∀ g ∈ rest, g.frame = f.frame) :
    ∃ last, rest.foldlM (zip? fun bs b => some (b :: bs)) columns = some last := by
  induction rest generalizing done columns with
  | nil => exact ⟨columns, rfl⟩
  | cons g rest ih =>
    obtain ⟨next, hnext⟩ := zip?_ok (g := fun (bs : List (Block α)) b => some (b :: bs))
      ((hframes g (by simp)).trans h.1.symm) fun p _ => ⟨_, rfl⟩
    obtain ⟨last, hlast⟩ := ih (h.next hnext).2 fun k hk => hframes k (by simp [hk])
    exact ⟨last, by rw [List.foldlM_cons, hnext]; exact hlast⟩

/-- Factors can be stacked that have one frame, if the leaves in each place can be. -/
theorem exists_stack?_of_leaves {fs : List (FactorStack C α)} {F : FactorStack C α} (hne : fs ≠ [])
    (hframes : ∀ f ∈ fs, f.frame = F.frame)
    (hleaves : ∀ p, p < F.leaves.length → ∃ u, Block.stack? (fs.map (·.leafAt p)) = some u) :
    ∃ G, stack? fs = some G := by
  obtain ⟨f, rest, rfl⟩ := List.exists_cons_of_ne_nil hne
  obtain ⟨columns, hcolumns⟩ := exists_columns (gathers_first f) fun g (hg : g ∈ rest) =>
    (hframes g (by simp [hg])).trans (hframes f (by simp)).symm
  obtain ⟨-, -, hgathered⟩ :=
    gathers_rows (gathers_first f) (List.forall_mem_singleton.2 rfl) hcolumns
  have hlength : f.leaves.length = F.leaves.length := length_leaves_eq (hframes f (by simp))
  obtain ⟨G, hG⟩ := traverse_ok (g := fun bs : List (Block α) => Block.stack? bs.reverse)
    (f := columns) (by
      rw [hgathered]
      intro bs hbs
      obtain ⟨p, hp, rfl⟩ := List.mem_map.1 hbs
      simpa using hleaves p (hlength ▸ List.mem_range.1 hp))
  refine ⟨G, ?_⟩
  rw [stack?, hcolumns]
  exact hG

/-- Factors can be stacked that have one frame, and whose leaves have one kind and shape in each
place. -/
theorem exists_stack? {fs : List (FactorStack C α)} {F : FactorStack C α} (hne : fs ≠ [])
    (hframes : ∀ f ∈ fs, f.frame = F.frame)
    (hforms : ∀ f ∈ fs, f.leaves.map (fun b => (b.kind, b.shape)) =
      F.leaves.map fun b => (b.kind, b.shape)) : ∃ G, stack? fs = some G := by
  refine exists_stack?_of_leaves hne hframes fun p hp => ?_
  have hform : ∀ b ∈ fs.map (·.leafAt p), b.kind = (F.leaves[p]).kind ∧ b.shape = (F.leaves[p]).shape := by
    intro b hb
    obtain ⟨g, hg, rfl⟩ := List.mem_map.1 hb
    have hpg : p < g.leaves.length := by rwa [length_leaves_eq (hframes g hg)]
    rw [leafAt_eq hpg]
    have hget := congrArg (fun l => l[p]?) (hforms g hg)
    simpa [hpg, hp] using hget
  obtain ⟨u, hu, -⟩ := Block.stack?_rows (by simpa using hne) (fun b hb => (hform b hb).1)
    fun b hb => (hform b hb).2
  exact ⟨u, hu⟩

/-- Factors whose leaves have one kind in each place are the rows of their stack. -/
theorem rows_of_stack? {fs : List (FactorStack C α)} {F : FactorStack C α} (kind : Nat → Kind)
    (h : stack? fs = some F) (hkind : ∀ f ∈ fs, ∀ p, p < f.leaves.length → (f.leafAt p).kind = kind p)
    {i : Nat} (hi : i < fs.length) :
    F.row i = fs[i] ∧
      ∀ p, p < F.leaves.length →
        (F.leafAt p).kind = kind p ∧ (F.leafAt p).shape = fs.length :: ((fs[i]).leafAt p).shape := by
  obtain ⟨hne, hframes, hstack⟩ := stack?_spec h
  have hmem := List.getElem_mem hi
  have hlengths : ∀ f ∈ fs, f.leaves.length = F.leaves.length :=
    fun f hf => length_leaves_eq (hframes f hf)
  have hleaf : ∀ p, p < F.leaves.length → (F.leafAt p).kind = kind p ∧
      (F.leafAt p).shape = fs.length :: ((fs[i]).leafAt p).shape ∧
      (F.leafAt p).row i = (fs[i]).leafAt p := by
    intro p hp
    obtain ⟨s, hcolumn, hshape⟩ := Block.shape_eq_of_stack? (hstack p hp)
    have hkinds : ∀ b ∈ fs.map (·.leafAt p), b.kind = kind p := by
      intro b hb
      obtain ⟨f, hf, rfl⟩ := List.mem_map.1 hb
      exact hkind f hf p (by rw [hlengths f hf]; exact hp)
    obtain ⟨u, hu, hukind, hushape, hrows⟩ := Block.stack?_rows hcolumn hkinds hshape
    obtain rfl := Option.some.inj (hu.symm.trans (hstack p hp))
    rw [hukind, hushape, hshape _ (List.mem_map_of_mem hmem), hrows i (by simpa using hi)]
    simp
  refine ⟨eq_of_leaves ?_ ?_, fun p hp => ⟨(hleaf p hp).1, (hleaf p hp).2.1⟩⟩
  · rw [row, frame_map, hframes _ hmem]
  · rw [row, leaves_map]
    refine List.ext_getElem (by simp [hlengths _ hmem]) fun p hp hp' => ?_
    have hp : p < F.leaves.length := by simpa using hp
    rw [List.getElem_map, ← leafAt_eq hp, (hleaf p hp).2.2, leafAt_eq]

omit [DecidableEq C] in
/-- The rows of a stack have arrays of the same shapes. -/
theorem shapes_row (F : FactorStack C α) (i j : Nat) :
    (F.row i).map Block.shape Block.shape = (F.row j).map Block.shape Block.shape := by
  have hfields : ∀ i (t : Tree (Block α)), (t.map (·.row i)).map Block.shape = t.map fun b => b.shape.tail := by
    intro i t
    rw [Tree.map_map]
    simp only [Block.shape_row_eq]
  simp only [row, map, List.map_map, Function.comp_def, Block.shape_row_eq, hfields]

end Stacks

end LeastSquares.Factor
