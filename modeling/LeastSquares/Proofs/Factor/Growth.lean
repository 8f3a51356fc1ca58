import LeastSquares.Proofs.Array.Growth
import LeastSquares.Proofs.Factor.Stack

/-!
# Stacks of factors that grow

A factor whose leaves have the shapes of those in a stack is appended leaf by leaf. What comes out is the
stack of all the factors: arrays in one place are brought to the widest of their kinds, whether this is
done one by one or at once.
-/

namespace LeastSquares.Factor

variable {C α : Type} [DecidableEq C] [Scalar α]

/-- Factors of one frame are stacked by stacking the leaves in each place. -/
theorem stack?_of_leaves {fs : List (FactorStack C α)} {F : FactorStack C α} (hne : fs ≠ [])
    (hframes : ∀ f ∈ fs, f.frame = F.frame)
    (hleaves : ∀ p, p < F.leaves.length →
      Block.stack? (fs.map (·.leafAt p)) = some (F.leafAt p)) : stack? fs = some F := by
  obtain ⟨G, hstack⟩ := exists_stack?_of_leaves hne hframes fun p hp => ⟨_, hleaves p hp⟩
  obtain ⟨-, hGframes, hGleaves⟩ := stack?_spec hstack
  have hframe : G.frame = F.frame := by
    obtain ⟨f, hf⟩ := List.exists_mem_of_ne_nil _ hne
    exact (hGframes f hf).symm.trans (hframes f hf)
  refine hstack.trans (congrArg some (eq_of_leaves hframe ?_))
  refine List.ext_getElem (length_leaves_eq hframe) fun p hp hp' => ?_
  rw [← leafAt_eq hp, ← leafAt_eq hp']
  exact Option.some.inj ((hGleaves p hp).symm.trans (hleaves p hp'))

/-- A factor as the only row of a stack. -/
theorem stack?_singleton (f : FactorStack C α) :
    stack? [f] = some (f.map Block.lifted Block.lifted) := by
  refine stack?_of_leaves (by simp) (List.forall_mem_singleton.2 (frame_map ..).symm) fun p hp => ?_
  have hp' : p < f.leaves.length := by simpa [leaves_map] using hp
  rw [List.map_singleton, Block.stack?_singleton, leafAt_eq hp, leafAt_eq hp']
  simp [leaves_map]

/-- Appending a factor to a stack is stacking one more factor. -/
theorem stack?_append {fs : List (FactorStack C α)} {F G g : FactorStack C α} (h : stack? fs = some F)
    (hshapes : ∀ f ∈ fs, f.leaves.map Block.shape = g.leaves.map Block.shape)
    (hzip : F.zip? Block.append? (g.map Block.lifted Block.lifted) = some G) :
    stack? (fs ++ [g]) = some G := by
  obtain ⟨hne, hframes, hleaves⟩ := stack?_spec h
  obtain ⟨hgframe, hGframe, happended⟩ := zip?_spec hzip
  rw [frame_map] at hgframe
  have hlength : G.leaves.length = F.leaves.length := length_leaves_eq hGframe
  have hglength : g.leaves.length = F.leaves.length := length_leaves_eq hgframe
  refine stack?_of_leaves (by simp) ?_ fun p hp => ?_
  · rw [List.forall_mem_append, List.forall_mem_singleton, hGframe]
    exact ⟨hframes, hgframe⟩
  · have hpF : p < F.leaves.length := hlength ▸ hp
    have hpg : p < g.leaves.length := hglength.symm ▸ hpF
    have hget := happended.get (by simp [leaves_map, hpF, hpg]) hp
    rw [List.map_append, List.map_singleton,
      ← Block.append?_of_stack? (hleaves p hpF) (List.forall_mem_map.2 fun f hf => ?_)]
    · rw [leafAt_eq hpF, leafAt_eq hpg, leafAt_eq hp]
      simpa [leaves_map] using hget
    · have hpf : p < f.leaves.length := (length_leaves_eq (hframes f hf)).symm ▸ hpF
      have hshape := congrArg (fun l => l[p]?) (hshapes f hf)
      rw [leafAt_eq hpf, leafAt_eq hpg]
      simpa [hpf, hpg] using hshape

/-! ## Rows -/

omit [DecidableEq C] in
/-- The factor with its arrays in wider kinds, apart from its indices. -/
structure Widens (g g' : FactorStack C α) : Prop where
  frame : g'.frame = g.frame
  handles : g'.handles = g.handles
  leaves : List.Forall₂ (fun b b' => ∃ k, Kind.join k b.kind = k ∧ b' = b.cast k) g.leaves g'.leaves

/-- The leaves of a stack, told of those of a factor. -/
theorem leafAt_stack? {fs : List (FactorStack C α)} {F : FactorStack C α} (h : stack? fs = some F)
    {i : Nat} (hi : i < fs.length) {p : Nat} (hp : p < F.leaves.length) :
    (F.leafAt p).shape = fs.length :: ((fs[i]).leafAt p).shape ∧
      (F.leafAt p).kind = Block.widest (fs.map (·.leafAt p)) ∧
      (F.leafAt p).row i = ((fs[i]).leafAt p).cast (Block.widest (fs.map (·.leafAt p))) := by
  obtain ⟨hne, -, hstack⟩ := stack?_spec h
  obtain ⟨s, hcolumn, hshape⟩ := Block.shape_eq_of_stack? (hstack p hp)
  obtain ⟨u, hu, hkind, hushape, hrows⟩ := Block.stack?_widest hcolumn hshape
  obtain rfl := Option.some.inj (hu.symm.trans (hstack p hp))
  refine ⟨?_, hkind, ?_⟩
  · rw [hushape, hshape _ (List.mem_map_of_mem (List.getElem_mem hi)), List.length_map]
  · rw [hrows i (by simpa using hi), List.getElem_map]

omit [DecidableEq C] [Scalar α] in
theorem leafAt_index (f : FactorStack C α) {k : Nat} (hk : k < f.handles.length) :
    f.leafAt k = (f.handles[k]).index := by
  rw [leafAt, leaves, List.getD_append _ _ _ _ (by simpa using hk),
    List.getD_eq_getElem _ _ (by simpa using hk), List.getElem_map]

/-- The indices of a stack, if those of the factors are whole numbers. -/
theorem index_stack? {fs : List (FactorStack C α)} {F : FactorStack C α} (h : stack? fs = some F)
    (hindex : ∀ f ∈ fs, ∀ a ∈ f.handles, a.index.kind = .int) {i : Nat} (hi : i < fs.length)
    {k : Nat} (hk : k < F.handles.length) (hk' : k < (fs[i]).handles.length) :
    ((F.handles[k]).index).kind = .int ∧
      (F.handles[k]).index.shape = fs.length :: ((fs[i]).handles[k]).index.shape ∧
      (F.handles[k]).index.row i = ((fs[i]).handles[k]).index := by
  obtain ⟨hne, hframes, -⟩ := stack?_spec h
  have hp : k < F.leaves.length := by
    rw [leaves, List.length_append, List.length_map]
    omega
  have hkinds : ∀ b ∈ fs.map (·.leafAt k), b.kind = .int := by
    intro b hb
    obtain ⟨f, hf, rfl⟩ := List.mem_map.1 hb
    have hkf : k < f.handles.length := (length_handles_eq (hframes f hf)).symm ▸ hk
    rw [leafAt_index f hkf]
    exact hindex f hf _ (List.getElem_mem hkf)
  obtain ⟨hshape, hkind, hrow⟩ := leafAt_stack? h hi hp
  rw [Block.widest_eq (by simpa using hne) hkinds, leafAt_index F hk] at hkind
  rw [Block.widest_eq (by simpa using hne) hkinds, leafAt_index F hk, leafAt_index _ hk',
    ← hindex _ (List.getElem_mem hi) _ (List.getElem_mem hk'), Block.cast_self] at hrow
  rw [leafAt_index F hk, leafAt_index _ hk'] at hshape
  exact ⟨hkind, hshape, hrow⟩

omit [DecidableEq C] [Scalar α] in
theorem type_eq_of_frame {ι κ β γ : Type} {e : Factor C ι β} {f : Factor C κ γ} (h : e.frame = f.frame)
    {k : Nat} (hk : k < e.handles.length) (hk' : k < f.handles.length) :
    (e.handles[k]).type = (f.handles[k]).type := by
  have hget := congrArg (fun frame => frame.2.1[k]?) h
  simpa [frame, types, hk, hk'] using hget

/-- The arrays of a row are those of the factor, in the widest kinds. -/
theorem leaves_row {fs : List (FactorStack C α)} {F : FactorStack C α} (h : stack? fs = some F) {i : Nat}
    (hi : i < fs.length) :
    List.Forall₂ (fun b b' => ∃ k, Kind.join k b.kind = k ∧ b' = b.cast k) (fs[i]).leaves (F.row i).leaves := by
  have hlength : (fs[i]).leaves.length = F.leaves.length :=
    length_leaves_eq ((stack?_spec h).2.1 _ (List.getElem_mem hi))
  rw [row, leaves_map, List.forall₂_map_right_iff]
  refine List.forall₂_iff_get.2 ⟨hlength, fun p hp hp' => ?_⟩
  obtain ⟨-, -, hrow⟩ := leafAt_stack? h hi hp'
  rw [leafAt_eq hp', leafAt_eq hp] at hrow
  have hjoin := Block.join_widest (List.mem_map_of_mem (f := fun f : FactorStack C α => f.leafAt p)
    (List.getElem_mem hi))
  rw [leafAt_eq hp] at hjoin
  exact ⟨_, hjoin, hrow⟩

/-- The rows of a stack are the factors, with their arrays in the widest kinds. -/
theorem widens_row {fs : List (FactorStack C α)} {F : FactorStack C α} (h : stack? fs = some F)
    (hindex : ∀ f ∈ fs, ∀ a ∈ f.handles, a.index.kind = .int) {i : Nat} (hi : i < fs.length) :
    Widens fs[i] (F.row i) := by
  have hframe := (stack?_spec h).2.1 _ (List.getElem_mem hi)
  have hhandles : (fs[i]).handles.length = F.handles.length := length_handles_eq hframe
  refine ⟨(frame_map ..).trans hframe.symm, ?_, leaves_row h hi⟩
  refine List.ext_getElem (by simp [row, map, hhandles]) fun k hk hk' => ?_
  have hkF : k < F.handles.length := hhandles ▸ hk'
  have hrow : (F.row i).handles[k] = ⟨(F.handles[k]).type, (F.handles[k]).index.row i⟩ := by
    simp [row, map]
  rw [hrow, (index_stack? h hindex hi hkF hk').2.2, ← type_eq_of_frame hframe hk' hkF]

theorem leaves_stack? {fs : List (FactorStack C α)} {F : FactorStack C α} (h : stack? fs = some F)
    (hleaves : ∀ f ∈ fs, f.leaves ≠ []) : F.leaves ≠ [] := by
  obtain ⟨hne, hframes, -⟩ := stack?_spec h
  obtain ⟨f, hf⟩ := List.exists_mem_of_ne_nil _ hne
  exact List.ne_nil_of_length_pos (length_leaves_eq (hframes f hf) ▸ List.length_pos_of_ne_nil (hleaves f hf))

/-- A stack has a row for each factor. -/
theorem rowCount_stack? {fs : List (FactorStack C α)} {F : FactorStack C α} (h : stack? fs = some F)
    (hleaves : F.leaves ≠ []) : F.rowCount = .ok fs.length := by
  obtain ⟨hne, -, -⟩ := stack?_spec h
  have hheads : ∀ b ∈ F.leaves, b.shape.head? = some fs.length := by
    intro b hb
    obtain ⟨p, hp, rfl⟩ := List.getElem_of_mem hb
    rw [← leafAt_eq hp, (leafAt_stack? h (List.length_pos_of_ne_nil hne) hp).1]
    rfl
  obtain ⟨b, rest, hfirst⟩ := List.exists_cons_of_ne_nil hleaves
  have hcount : F.count = .ok fs.length := by
    simp [count, hfirst, hheads b (by simp [hfirst])]
  rw [rowCount, hcount, Checked.ok_bind, if_pos (List.all_eq_true.2 fun b hb => by simp [hheads b hb])]
  rfl

theorem rows_stack? {fs : List (FactorStack C α)} {F : FactorStack C α} (h : stack? fs = some F)
    (hleaves : F.leaves ≠ []) : F.rows = .ok ((List.range fs.length).map F.row) := by
  rw [rows, rowCount_stack? h hleaves]
  rfl

end LeastSquares.Factor
