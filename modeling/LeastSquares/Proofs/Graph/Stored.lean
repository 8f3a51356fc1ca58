import LeastSquares.Proofs.Buffer.Moving
import LeastSquares.Proofs.Graph.Damping
import LeastSquares.Proofs.Graph.Evaluable
import LeastSquares.Proofs.Graph.Growth

/-!
# Stored graphs at stored values

Values stored one by one, each of its type, make a store at which graphs are evaluated; and factors stored
one by one make a graph that can be evaluated there, if each of them can. A group holds its factors as
rows of arrays, in which whole numbers become real where another factor of the group has reals: so a factor
is asked to evaluate with its arrays in any wider kinds, too.
-/

namespace LeastSquares

/-! ## Stores -/

namespace Store

variable {C α : Type} [DecidableEq C] [FactorFamily C]

section Rows

variable [Scalar α] {ops : List (Operation C α)} {s : Store C α}

/-- A type of which values were stored has as many rows. -/
theorem Refines.rows {forms : VariableType → Tree (Kind × Shape)} (h : Refines forms ops s)
    (hu : Uniform forms ops) {T : VariableType} (hpos : 0 < storedCount T ops) :
    Key.type T ∈ s.layout.keys ∧ s.layout.rows (.type T) = storedCount T ops := by
  have hstacks := h.stacked T hpos
  refine ⟨List.mem_toFinset.2 (mem_keys_of_content ?_), ?_⟩
  · rw [show s.buffers.buffer (.type T) = s.buffer (.type T) from rfl, hstacks.content]
    nofun
  · show (s.buffer (.type T)).count.toOption.getD 0 = _
    rw [hstacks.count (hu.arrays T)]
    rfl

end Rows

variable [LinearOrder α] [ExactScalar α] {ops : List (Operation C α)} {s : Store C α}

/-- A store is ready if all values that were stored in it were of their types. -/
theorem ready_of_run {forms : VariableType → Tree (Kind × Shape)} (hu : Uniform forms ops)
    (hforms : ∀ T, 0 < storedCount T ops → forms T = T.form) (hs : Store.empty.run ops = .ok s) :
    s.Ready s.layout := by
  have hrefines := Refines.run hu hs
  have hstored : ∀ T, Key.type T ∈ s.buffers.keys → 0 < storedCount T ops := fun T hT =>
    Nat.pos_of_ne_zero fun hzero => hrefines.missing T hzero hT
  have hwell : s.WellFormed := by
    intro key b hb
    have hkey := Table.mem_keys_iff.2 ⟨b, hb⟩
    obtain ⟨T, rfl, -⟩ := typed_of_run hs key b hb
    have hpos := hstored T hkey
    have hstacks := hrefines.stacked T hpos
    rw [show s.buffer (.type T) = b from Buffers.buffer_of_get? hb] at hstacks
    refine ⟨T, _, _, rfl, hstacks.content, hstacks.stack,
      Value.rowCount_of_form hstacks.rows (hu.arrays T), hpos, fun hdiff => ?_⟩
    rw [hstacks.rows, hforms T hpos, VariableType.form, hdiff]
    rfl
  refine ⟨hwell, rfl, fun T hT _ place _ => ?_⟩
  have hpos := hstored T (List.mem_toFinset.1 hT)
  rw [← hforms T hpos]
  exact Value.form_row (hrefines.stacked T hpos).rows place

end Store

/-! ## Handles -/

/-- The handle names a single value of a layout. -/
def Handle.InRange {C α : Type} [Scalar α] (L : Layout C) (a : Handle (Item α)) : Prop :=
  Key.type a.type ∈ L.keys ∧ ∃ k, a.place? = some k ∧ k < L.rows (.type a.type)

theorem Item.block?_of_place? {α : Type} [Scalar α] {i : Item α} {b : Block α} {k : Nat}
    (hk : i.place? = some k) (hb : i.block? = some b) :
    ∃ t : Tensor Int, b = .ints t ∧ t.shape = [] ∧ t.entry 0 = k := by
  have hplaces : Residence.host.places i = .ok b := by
    cases i with
    | int | array => exact congrArg fitting hb
    | bool | real | text => cases hk
  exact places_of_place? hplaces hk

namespace Factor

variable {C α : Type}

section Handles

variable [Scalar α] {L : Layout C} {f : FactorLiteral C α} {g : FactorStack C α}

omit [Scalar α] in
theorem handles_of_stored? (h : f.stored? = some g) :
    List.Forall₂ (fun a b => b.type = a.type ∧ a.index.block? = some b.index) f.handles g.handles := by
  obtain ⟨handles, hhandles, h⟩ := Option.bind_eq_some_iff.1 h
  obtain ⟨fields, -, h⟩ := Option.bind_eq_some_iff.1 h
  cases h
  refine (forall₂_of_mapM hhandles).imp fun a b hb => ?_
  obtain ⟨index, hindex, hb⟩ := Option.bind_eq_some_iff.1 hb
  cases hb
  exact ⟨rfl, hindex⟩

/-- Handles in range address rows. -/
theorem points_of_stored? (h : f.stored? = some g) (hrange : ∀ a ∈ f.handles, a.InRange L) :
    ∀ b ∈ g.handles, b.Points L := by
  have hspec := handles_of_stored? h
  intro b hb
  obtain ⟨i, hi, rfl⟩ := List.getElem_of_mem hb
  have hi' : i < f.handles.length := hspec.length_eq ▸ hi
  obtain ⟨htype, hindex⟩ := hspec.get hi' hi
  simp only [List.get_eq_getElem] at htype hindex
  obtain ⟨hkey, k, hk, hlt⟩ := hrange _ (List.getElem_mem hi')
  obtain ⟨t, ht, hshape, hentry⟩ := Item.block?_of_place? hk hindex
  refine ⟨htype ▸ hkey, t, ht, hshape, k, ?_⟩
  rw [hentry, htype]
  exact Access.locate_of_lt hlt

variable [DecidableEq C]

/-- A stack of factors whose handles address rows. -/
theorem addresses_of_stack? {fs : List (FactorStack C α)} {F : FactorStack C α}
    (h : stack? fs = some F) (hpoints : ∀ f ∈ fs, ∀ a ∈ f.handles, a.Points L) :
    ∀ a ∈ F.handles, a.Addresses L fs.length := by
  obtain ⟨hne, hframes, -⟩ := stack?_spec h
  have hpos := List.length_pos_of_ne_nil hne
  have hkind : ∀ f ∈ fs, ∀ a ∈ f.handles, a.index.kind = .int := by
    intro f hf a ha
    obtain ⟨-, t, ht, -⟩ := hpoints f hf a ha
    rw [ht]
    rfl
  intro a ha
  obtain ⟨k, hk, rfl⟩ := List.getElem_of_mem ha
  have hlength : ∀ i (hi : i < fs.length), k < (fs[i]).handles.length := fun i hi =>
    (length_handles_eq (hframes _ (List.getElem_mem hi))).symm ▸ hk
  obtain ⟨hint, hshape, -⟩ := index_stack? h hkind hpos hk (hlength 0 hpos)
  obtain ⟨-, t, ht, hscalar, -⟩ := hpoints _ (List.getElem_mem hpos) _ (List.getElem_mem (hlength 0 hpos))
  rw [ht, Block.shape, hscalar] at hshape
  refine Handle.addresses_of_points hpos hint hshape fun i hi => ?_
  have hk' := hlength i hi
  have htypes : ((fs[i]).handles[k]).type = (F.handles[k]).type := by
    have hget := congrArg (fun frame => frame.2.1[k]?) (hframes _ (List.getElem_mem hi))
    simpa [frame, types, hk, hk'] using hget
  rw [(index_stack? h hkind hi hk hk').2.2, ← htypes]
  exact hpoints _ (List.getElem_mem hi) _ (List.getElem_mem hk')

end Handles

/-! ## Factors that can be evaluated -/

variable [DecidableEq C] [FactorFamily C] [LinearOrder α] [ExactScalar α]
  {L : Layout C} {parts : List VariableType} {m n : Nat} {g F : FactorStack C α}

/-- What a class asks for, besides values to evaluate at. Explicit Jacobians have a block for each
variable. Damping is left to the solver. A label chooses a motion between variables of one type, and a
class of the client is linearised in variables with tangent spaces, or is affine. -/
def Keeps (g : FactorStack C α) : Prop :=
  match g.kind with
  | .jacobian => (∀ t ∈ g.types, t.IsVector) ∧ ∃ m label blocks error,
      g.fields = [.node label (blocks.map .leaf), .leaf error] ∧
      List.Forall₂ (fun a B => B.shape = [m, a.type.tangentDim]) g.handles blocks ∧
      error.shape = [m]
  | .scalarJacobian => False
  | .prior | .between => True
  | .switchingBetween => ∃ t, g.types = [t, .discrete, t] ∧ t.isDifferentiable = true
  | .client c => match FactorFamily.rank c with
    | .scalar => True
    | .vector => g.Parted
    | .gaussian => FactorFamily.component c = none ∧ ∃ m A b, g.AffineBy m A b

/-- A factor that evaluates on all values of its variable types. If it has residuals, they have `m`
coordinates and it connects variables; the part that is differentiated connects variables of types
`parts`. -/
structure Sound (parts : List VariableType) (m : Nat) (g : FactorStack C α) : Prop where
  inherited : stackRule? g.kind = none
  leaves : g.leaves ≠ []
  connected : g.kind.hasResidual = true → g.handles ≠ []
  keeps : g.Keeps
  error : g.kind.rank = .scalar → ∀ values, Admitted g.types values →
    ∃ e, g.error values = .ok e
  residual : g.kind.rank ≠ .scalar → ∀ values, Admitted g.types values →
    ∃ r, g.residual values = .ok r ∧ r.shape = [m]
  part : g.kind.rank = .vector → ∀ values, Admitted g.types values →
    ∃ part ws, g.component values = .ok (part, ws) ∧ part.types = parts ∧ Typed part.types ws ∧
      part.Traces m

/-- A factor as it is given, for the variables of a layout: however its arrays are widened among others,
it evaluates. -/
structure Solvable (L : Layout C) (parts : List VariableType) (m : Nat) (f : FactorLiteral C α) :
    Prop where
  inRange : ∀ a ∈ f.handles, a.InRange L
  sound : ∀ g g', f.stored? = some g → g.Widens g' → g'.Sound parts m

omit [DecidableEq C] in
/-- A factor with an affine residual evaluates. -/
theorem sound_of_affine {A : List (Nat → Nat → α)} {b : Nat → α} (haffine : g.AffineIn m A b)
    (inherited : stackRule? g.kind = none) (hown : OwnPart g.kind) (hrank : g.kind.rank ≠ .scalar)
    (connected : g.handles ≠ []) (keeps : g.Keeps) : g.Sound g.types m where
  inherited := inherited
  leaves := by simp [leaves, connected]
  connected _ := connected
  keeps := keeps
  error hscalar := absurd hscalar hrank
  residual _ values hvalues := by
    obtain ⟨r, hr, hshape, -⟩ := haffine.residual (hvalues.typed fun t ht =>
      VariableType.isDifferentiable_of_isEuclidean (haffine.euclidean t ht))
    exact ⟨_, hr, hshape⟩
  part _ values hvalues := by
    have hdiff : ∀ t ∈ g.types, t.isDifferentiable = true := fun t ht =>
      VariableType.isDifferentiable_of_isEuclidean (haffine.euclidean t ht)
    refine ⟨g, values, component_of_ownPart hown hrank hdiff, rfl, hvalues.typed hdiff,
      fun moving hmoving _ => ?_⟩
    obtain ⟨R, hR, hshape, -⟩ := haffine.traced hmoving
    exact ⟨_, hR, hshape⟩

omit [DecidableEq C] [FactorFamily C] in
/-- Nothing is wider than the reals. -/
theorem Widens.eq {g' : FactorStack C α} (h : g.Widens g')
    (hreal : ∀ b ∈ Tree.leaves.all g.fields, b.kind = .real) : g' = g := by
  have hfields := h.leaves
  rw [leaves_eq, leaves_eq] at hfields
  have hdrop := List.forall₂_drop_append _ _ _ hfields
  rw [show (g'.handles.map (·.index)).length = (g.handles.map (·.index)).length by rw [h.handles],
    List.drop_left] at hdrop
  refine eq_of_leaves h.frame ?_
  rw [leaves_eq, leaves_eq, h.handles]
  refine congrArg (_ ++ ·) (List.ext_getElem hdrop.length_eq.symm fun p hp' hp => ?_)
  obtain ⟨k, hk, hcast⟩ := hdrop.get hp hp'
  simp only [List.get_eq_getElem] at hk hcast
  rw [hreal _ (List.getElem_mem hp)] at hk
  obtain rfl : k = .real := by cases k <;> first | rfl | cases hk
  rw [hcast, ← hreal _ (List.getElem_mem hp), Block.cast_self]

omit [DecidableEq C] in
/-- A factor given with real arrays, whose residual is affine. -/
theorem solvable_of_affine {f : FactorLiteral C α} {A : List (Nat → Nat → α)} {b : Nat → α}
    (hstored : f.stored? = some g) (inRange : ∀ a ∈ f.handles, a.InRange L)
    (hreal : ∀ b ∈ Tree.leaves.all g.fields, b.kind = .real) (haffine : g.AffineIn m A b)
    (inherited : stackRule? g.kind = none) (hown : OwnPart g.kind) (hrank : g.kind.rank ≠ .scalar)
    (connected : g.handles ≠ []) (keeps : g.Keeps) : f.Solvable L g.types m where
  inRange := inRange
  sound h h' hh hwidens := by
    obtain rfl := Option.some.inj (hstored.symm.trans hh)
    rw [hwidens.eq hreal]
    exact sound_of_affine haffine inherited hown hrank connected keeps

omit [DecidableEq C] in
/-- A stack of factors that evaluate. -/
theorem evaluates_of_sound (rowCount : F.rowCount = .ok n) (positive : 0 < n)
    (addressed : ∀ a ∈ F.handles, a.Addresses L n) (h : ∀ i, i < n → (F.row i).Sound parts m) :
    F.Evaluates L n where
  rowCount := rowCount
  positive := positive
  addressed := addressed
  inherited := (h 0 positive).inherited
  error hrank i hi values hvalues := (h i hi).error hrank values (types_row F i ▸ hvalues)
  residual hrank := ⟨m, fun i hi values hvalues =>
    (h i hi).residual hrank values (types_row F i ▸ hvalues)⟩
  part hrank := ⟨parts, m, fun i hi values hvalues =>
    (h i hi).part hrank values (types_row F i ▸ hvalues)⟩

omit [DecidableEq C] [FactorFamily C] [LinearOrder α] [ExactScalar α] in
theorem head?_of_rowCount (h : F.rowCount = .ok n) : ∀ b ∈ F.leaves, b.shape.head? = some n := by
  obtain ⟨k, -, h⟩ := Checked.bind_eq_ok h
  split at h
  next hall =>
    obtain rfl := Except.ok.inj h
    simpa using hall
  next => cases h

omit [DecidableEq C] [FactorFamily C] in
/-- A stack whose first row is an explicit Jacobian. -/
theorem linear_of_row (rowCount : F.rowCount = .ok n) (hkind : F.kind = .jacobian)
    (connected : F.handles ≠ []) (addressed : ∀ a ∈ F.handles, a.Addresses L n) {label : Label}
    {blocks : List (Block α)} {error : Block α}
    (hfields : (F.row 0).fields = [.node label (blocks.map .leaf), .leaf error])
    (hshapes : List.Forall₂ (fun a B => B.shape = [m, a.type.tangentDim]) (F.row 0).handles blocks)
    (herror : error.shape = [m]) : F.Linear L n m := by
  have hhead := head?_of_rowCount rowCount
  have hrow : ∀ b ∈ F.leaves, ∀ s, (b.row 0).shape = s → b.shape = n :: s := by
    intro b hb s hs
    rw [Block.shape_row_eq] at hs
    have := hhead b hb
    cases hb : b.shape with
    | nil => simp [hb] at this
    | cons d tail => simp_all
  obtain ⟨kind, handles, fields⟩ := F
  obtain rfl : kind = .jacobian := hkind
  replace hfields : fields.map (Tree.map (·.row 0)) = [.node label (blocks.map .leaf), .leaf error] :=
    hfields
  obtain ⟨jacobians, last, rfl⟩ : ∃ s t, fields = [s, t] :=
    List.length_eq_two.1 (by simpa using congrArg List.length hfields)
  injection hfields with hjacobians hlast
  injection hlast with hlast
  have hflat : jacobians.skeleton = .node label (blocks.map fun _ => .leaf ()) := by
    rw [← Tree.skeleton_map (·.row 0), hjacobians, Tree.skeleton_node, List.map_map]
    rfl
  have hsingle : last.skeleton = .leaf () := by
    rw [← Tree.skeleton_map (·.row 0), hlast]
    rfl
  obtain ⟨Bs, rfl, hlength⟩ := Tree.eq_flat_of_skeleton hflat
  obtain ⟨e, rfl⟩ := Tree.eq_leaf_of_skeleton hsingle
  have hblocks : Bs.map (·.row 0) = blocks := by
    have hleaves := congrArg Tree.leaves hjacobians
    rwa [Tree.leaves_map, Tree.leaves_node_map_leaf, Tree.leaves_node_map_leaf] at hleaves
  have hmem : ∀ b ∈ Bs, b ∈ leaves (⟨.jacobian, handles, [.node label (Bs.map .leaf), .leaf e]⟩ :
      FactorStack C α) := fun b hb => by
    simp [leaves, Tree.leaves_node_map_leaf, hb]
  refine .jacobian connected ?_ ?_ addressed
  · subst hblocks
    rw [List.forall₂_map_right_iff] at hshapes
    have hhandles : List.Forall₂ (fun a B => (Block.row B 0).shape = [m, a.type.tangentDim])
        handles Bs := List.forall₂_map_left_iff.1 hshapes
    refine List.forall₂_iff_get.2 ⟨hhandles.length_eq, fun i hi hi' => ?_⟩
    exact hrow _ (hmem _ (List.get_mem Bs ⟨i, hi'⟩)) _ (hhandles.get hi hi')
  · have hleaf : (Tree.leaf e).map (·.row 0) = .leaf (e.row 0) := rfl
    obtain rfl : e.row 0 = error := Tree.leaf.inj (hleaf.symm.trans hlast)
    exact hrow e (by simp [leaves, Tree.leaves]) _ herror

/-- A stack of factors that keep to their class. -/
theorem proper_of_sound (rowCount : F.rowCount = .ok n) (positive : 0 < n)
    (addressed : ∀ a ∈ F.handles, a.Addresses L n) (h : ∀ i, i < n → (F.row i).Sound parts m)
    (hresidual : F.kind.hasResidual = true) : F.Proper L n := by
  have hfirst := h 0 positive
  have connected : F.handles ≠ [] := by
    simpa [row, map] using hfirst.connected hresidual
  refine ⟨rowCount, connected, addressed, rowwise_of_inherited hfirst.inherited, ?_⟩
  have hkeeps : ∀ i, i < n → (F.row i).Keeps := fun i hi => (h i hi).keeps
  have hrowkind : ∀ i, (F.row i).kind = F.kind := fun _ => rfl
  unfold Lawful
  unfold Keeps at hkeeps
  simp only [hrowkind, types_row] at hkeeps
  cases hk : F.kind with
  | jacobian =>
    simp only [hk] at hkeeps
    obtain ⟨hvector, m', label, blocks, error, hfields, hshapes, herror⟩ := hkeeps 0 positive
    exact ⟨hvector, m', linear_of_row rowCount hk connected addressed hfields hshapes herror⟩
  | scalarJacobian =>
    simp only [hk] at hkeeps
    exact absurd (hkeeps 0 positive) id
  | prior | between => trivial
  | switchingBetween =>
    simp only [hk] at hkeeps
    exact hkeeps 0 positive
  | client c =>
    simp only [hk] at hkeeps ⊢
    cases hr : FactorFamily.rank c with
    | scalar => trivial
    | vector =>
      simp only [hr] at hkeeps
      exact hkeeps
    | gaussian =>
      simp only [hr] at hkeeps
      exact ⟨(hkeeps 0 positive).1, fun i hi => (hkeeps i hi).2⟩

end Factor

/-! ## Graphs -/

namespace FactorGraph

variable {C α : Type} [DecidableEq C] [FactorFamily C] [LinearOrder α] [ExactScalar α]
  {L : Layout C} {fs : List (FactorLiteral C α)} {graph : FactorGraph C α}

/-- Factors that can be evaluated together: those of one group have residuals of one dimension, and are
differentiated in variables of the same types. -/
def Solvable (L : Layout C) (fs : List (FactorLiteral C α)) : Prop :=
  ∀ k, ∃ parts m, ∀ f ∈ members k fs, f.Solvable L parts m

/-- Factors of a group, as its buffer holds them. -/
theorem Bucket.evaluates {k : GroupKey C} {ms : List (FactorLiteral C α)} {b : Buffer C α}
    (h : Bucket k ms b) (hms : ∀ f ∈ ms, GroupKey.ofItems f = k) {parts : List VariableType} {m : Nat}
    (hsolvable : ∀ f ∈ ms, f.Solvable L parts m) : ∃ F n, b.content = some (.factors F.kind) ∧
      b.stack = some (.factors F) ∧ F.Evaluates L n ∧
      (F.kind.hasResidual = true → F.Proper L n) ∧ F.kind = k.kind ∧ F.kind ≠ .scalarJacobian := by
  obtain ⟨rows, F, hcontent, hstack, hrows, hF⟩ := h
  obtain ⟨hne, hframes, -⟩ := Factor.stack?_spec hF
  have hpos := List.length_pos_of_ne_nil hne
  have hmember : ∀ i (hi : i < rows.length), ∃ f ∈ ms, f.stored? = some rows[i] := fun i hi =>
    ⟨_, List.getElem_mem (hrows.length_eq ▸ hi), hrows.get (hrows.length_eq ▸ hi) hi⟩
  have hpoints : ∀ g ∈ rows, ∀ a ∈ g.handles, a.Points L := by
    intro g hg
    obtain ⟨i, hi, rfl⟩ := List.getElem_of_mem hg
    obtain ⟨f, hf, hstored⟩ := hmember i hi
    exact Factor.points_of_stored? hstored (hsolvable f hf).inRange
  have hindex : ∀ g ∈ rows, ∀ a ∈ g.handles, a.index.kind = .int := by
    intro g hg a ha
    obtain ⟨-, t, ht, -⟩ := hpoints g hg a ha
    rw [ht]
    rfl
  have hsound : ∀ i, i < rows.length → (F.row i).Sound parts m := fun i hi => by
    obtain ⟨f, hf, hstored⟩ := hmember i hi
    exact (hsolvable f hf).sound _ _ hstored (Factor.widens_row hF hindex hi)
  have hleaves : F.leaves ≠ [] := by
    have := (hsound 0 hpos).leaves
    rw [Factor.row, Factor.leaves_map] at this
    simpa using this
  have hkind : F.kind = k.kind := by
    obtain ⟨f, hf, hstored⟩ := hmember 0 hpos
    have hframe := (hframes _ (List.getElem_mem hpos)).symm.trans (Factor.stored?_spec hstored).1
    rw [← hms f hf]
    exact congrArg (·.1) hframe
  have hcount := Factor.rowCount_stack? hF hleaves
  have haddressed := Factor.addresses_of_stack? hF hpoints
  refine ⟨F, rows.length, hkind ▸ hcontent, hstack,
    Factor.evaluates_of_sound hcount hpos haddressed hsound,
    Factor.proper_of_sound hcount hpos haddressed hsound, hkind, fun hscalar => ?_⟩
  have hkeeps := (hsound 0 hpos).keeps
  rw [Factor.Keeps, show (F.row 0).kind = .scalarJacobian from hscalar] at hkeeps
  exact hkeeps

/-- Factors that can be evaluated, stored one by one, make a graph that can be evaluated. -/
theorem evaluable_of_ofFactors (h : ofFactors fs = .ok graph) (hfs : Solvable L fs) :
    graph.Evaluable L ∧ graph.Undamped := by
  have hholds := holds_of_ofFactors h
  have hgroup : ∀ key b, graph.buffers.get? key = some b → ∃ F n, b.content = some (.factors F.kind) ∧
      b.stack = some (.factors F) ∧ F.Evaluates L n ∧ (F.kind.hasResidual = true → F.Proper L n) ∧
      ∀ k, key = .group k → k.kind ≠ .scalarJacobian := by
    intro key b hb
    obtain ⟨f, hf, rfl⟩ := hholds.keys key (Table.mem_keys_iff.2 ⟨b, hb⟩)
    obtain ⟨parts, m, hsolvable⟩ := hfs (.ofItems f)
    have hmember : f ∈ members (.ofItems f) fs := List.mem_filter.2 ⟨hf, decide_eq_true rfl⟩
    obtain ⟨b', hb', hbucket⟩ := hholds.bucket _ (List.ne_nil_of_mem hmember)
    obtain rfl := Option.some.inj (hb'.symm.trans hb)
    obtain ⟨F, n, hcontent, hstack, heval, hproper, hkind, hscalar⟩ :=
      hbucket.evaluates (fun e he => key_of_mem_members he) hsolvable
    refine ⟨F, n, hcontent, hstack, heval, hproper, fun k hk => ?_⟩
    rw [← Key.group.inj hk, ← hkind]
    exact hscalar
  refine ⟨fun key b hb => ?_, fun k hk => ?_⟩
  · obtain ⟨F, n, hcontent, hstack, heval, hproper, -⟩ := hgroup key b hb
    exact ⟨F, n, hcontent, hstack, heval, hproper⟩
  · obtain ⟨b, hb⟩ := Table.mem_keys_iff.1 hk
    obtain ⟨F, n, -, -, -, -, hscalar⟩ := hgroup _ b hb
    exact hscalar k rfl

end FactorGraph

end LeastSquares
