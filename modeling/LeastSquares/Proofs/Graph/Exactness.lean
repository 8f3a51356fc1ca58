import LeastSquares.Proofs.Factor.Prior
import LeastSquares.Proofs.Graph.Affine
import LeastSquares.Catalogue

/-!
# Exact linearisation

A graph of affine factors is linearised without loss: the linear graph has, at any tangent vectors,
the residuals and the error of the graph where its store was moved along them.
-/

namespace LeastSquares

namespace Factor

variable {C α : Type} [DecidableEq C] [FactorFamily C] [LinearOrder α] [ExactScalar α]
  {f g F : FactorStack C α} {s p : Store C α} {d : Vectors C α} {L : Layout C} {n m i : Nat}
  {types : List VariableType}

/-! ## Stacking what affine factors become -/

/-- The factors of a stack are linearised one by one, in parts that connect variables of the same
types. -/
structure Even (f : FactorStack C α) (n : Nat) : Prop where
  inherited : stackRule? f.kind = none
  alike : f.kind.rank = .vector → ∃ types, ∀ i, i < n → ∀ values, Typed f.types values →
    ∃ part ws, (f.row i).component values = .ok (part, ws) ∧ part.types = types

omit [DecidableEq C] in
/-- Classes without rules of their own are linearised so. -/
theorem even_of_ownPart (hown : OwnPart f.kind) (hinherited : stackRule? f.kind = none)
    (heuclidean : ∀ t ∈ f.types, t.isEuclidean = true) (n : Nat) : f.Even n where
  inherited := hinherited
  alike hrank := ⟨f.types, fun i _ values _ => ⟨f.row i, values,
    component_of_ownPart (f := f.row i) hown (by
      rw [show (f.row i).kind.rank = .vector from hrank]
      simp) fun t ht => VariableType.isDifferentiable_of_isEuclidean (heuclidean t (by
        rwa [types_row] at ht)), types_row f i⟩⟩

/-- A factor with an explicit Jacobian of `m` rows for variables of these types. -/
def Explicit (L : Layout C) (types : List VariableType) (m : Nat) (g : FactorStack C α) : Prop :=
  ∃ handles blocks error, g = ofJacobian handles blocks error ∧ handles.map (·.type) = types ∧
    List.Forall₂ (fun a B => B.shape = [m, a.type.tangentDim]) handles blocks ∧ error.shape = [m] ∧
    ∀ a ∈ handles, a.Points L

/-- The kinds and shapes of the leaves of explicit Jacobians. -/
def explicitForms (types : List VariableType) (m : Nat) : List (Kind × Shape) :=
  types.map (fun _ => (.int, [])) ++
    (types.map (fun t => (.real, [m, t.tangentDim])) ++ [(.real, [m])])

omit [DecidableEq C] [FactorFamily C] [LinearOrder α] [ExactScalar α] in
theorem Explicit.forms [Scalar α] (h : Explicit L types m g) :
    g.leaves.map (fun b => (b.kind, b.shape)) = explicitForms types m := by
  obtain ⟨handles, blocks, error, rfl, rfl, hshapes, herror, hpoints⟩ := h
  rw [ofJacobian_eq, leaves_jacobian, explicitForms, List.map_append, List.map_append, List.map_map,
    List.map_map, List.map_map, List.map_map]
  congr 1
  · refine List.map_congr_left fun a ha => ?_
    obtain ⟨-, t, ht, hshape, -⟩ := hpoints a ha
    simp only [Function.comp_apply, ht]
    exact congrArg (Kind.int, ·) hshape
  congr 1
  · clear herror hpoints
    induction hshapes with
    | nil => rfl
    | cons hB _ ih => exact congrArg₂ _ (congrArg (Kind.real, ·) hB) ih
  · exact congrArg (fun s => [(Kind.real, s)]) herror

omit [DecidableEq C] [FactorFamily C] [LinearOrder α] [ExactScalar α] in
theorem Explicit.frame [Scalar α] (h : Explicit L types m g) :
    g.frame = (.jacobian, types, [.node .tuple (types.map fun _ => .leaf ()), .leaf ()]) := by
  obtain ⟨handles, blocks, error, rfl, rfl, hshapes, herror, -⟩ := h
  have hblocks : (blocks.map fun B => (Tree.leaf (Block.reals B)).skeleton) =
      (handles.map (·.type)).map fun _ => .leaf () := by
    clear herror
    induction hshapes with
    | nil => rfl
    | cons _ _ ih => exact congrArg (Tree.leaf () :: ·) ih
  rw [frame, ← hblocks]
  show (_, _, [Tree.skeleton (.node .tuple (blocks.map fun B => Tree.leaf (Block.reals B))), _]) = _
  rw [Tree.skeleton_node, List.map_map]
  rfl

omit [FactorFamily C] in
/-- Explicit Jacobians of one size for variables of the same types can be stacked. -/
theorem exists_stack?_of_explicit {gs : List (FactorStack C α)} (hne : gs ≠ [])
    (hgs : ∀ g ∈ gs, Explicit L types m g) : ∃ G, stack? gs = some G := by
  obtain ⟨first, hfirst⟩ := List.exists_mem_of_ne_nil gs hne
  refine exists_stack? (F := first) hne (fun g hg => ?_) fun g hg => ?_
  · rw [(hgs g hg).frame, (hgs first hfirst).frame]
  · rw [(hgs g hg).forms, (hgs first hfirst).forms]

omit [FactorFamily C] in
/-- What a factor of Euclidean variables reads in a store. -/
theorem exists_values (hs : s.WellFormed) (hpoints : ∀ a ∈ f.handles, a.Points s.layout)
    (heuclidean : ∀ t ∈ f.types, t.isEuclidean = true) :
    ∃ values, f.values s.bulk = .ok values ∧ Typed f.types values := by
  obtain ⟨values, hvalues, htyped⟩ := Checked.mapM_forall₂ (l := f.handles)
    (f := fun a => s.bulk a.inStack) (P := fun a x => x.value.IsReal a.type.shapes) (by
      intro a ha
      obtain ⟨place, -, hread⟩ := read_of_points hs (hpoints a ha)
      have hdiff := VariableType.isDifferentiable_of_isEuclidean
        (heuclidean a.type (List.mem_map_of_mem ha))
      exact ⟨_, hread, (hs.stores (hpoints a ha).1).row_isReal hdiff place⟩)
  exact ⟨values, hvalues, List.forall₂_map_left_iff.2 htyped⟩

/-- An affine factor and what it becomes. -/
theorem Affine.exists_linearized (h : (f.row i).Affine) (hf : f.Proper s.layout n)
    (hresidual : f.kind.hasResidual = true) (hs : s.WellFormed) (hi : i < n)
    (hparts : f.kind.rank = .vector → ∀ values, Typed f.types values →
      ∃ part ws, (f.row i).component values = .ok (part, ws) ∧ part.types = types)
    (htypes : f.kind.rank = .gaussian → types = f.types) :
    ∃ values r m g, (f.row i).values s.bulk = .ok values ∧
      (f.row i).residual values = .ok (.reals r) ∧ r.shape = [m] ∧
      (f.row i).linearized values = .ok g ∧ Explicit s.layout types m g := by
  have hcoefficients := h.coefficients
  have hpoints : ∀ a ∈ (f.row i).handles, a.Points s.layout := by
    intro a ha
    obtain ⟨b, hb, rfl⟩ := List.mem_map.1 ha
    exact (hf.addressed b hb).points hi
  obtain ⟨values, hvalues, htyped'⟩ := exists_values hs hpoints h.euclidean
  have htyped : Typed f.types values := by rwa [types_row] at htyped'
  have hlinearized : ∀ {part : FactorStack C α} {ws : List (Found α)} {m A b r},
      part.AffineIn m A b → part.residual ws = .ok (.reals r) → Typed part.types ws →
      part.types = types → (∀ a ∈ part.handles, a.Points s.layout) → r.shape = [m] ∧
      Explicit s.layout types m (ofJacobian part.handles (coefficientBlocks part.types m A)
        (.generate [m] fun j => -r.entry j)) := by
    intro part ws m A b r haffine hr hws hpart hpoints
    obtain ⟨r', hr', hshape, -⟩ := haffine.residual hws
    obtain rfl := Block.reals.inj (Except.ok.inj (hr.symm.trans hr'))
    exact ⟨hshape, part.handles, _, _, rfl, hpart, forall₂_coefficientBlocks haffine.length, rfl,
      hpoints⟩
  cases hrank : f.kind.rank with
  | scalar => simp [FactorClass.hasResidual, hrank] at hresidual
  | gaussian =>
    rw [show (f.row i).kind.rank = .gaussian from hrank] at hcoefficients
    obtain ⟨m, A, b, haffine⟩ := hcoefficients
    obtain ⟨r, hr, hshape, -⟩ := haffine.residual htyped'
    refine ⟨values, r, m, _, hvalues, hr, hshape, ?_, (hlinearized haffine.toAffineIn hr htyped'
      ((types_row f i).trans (htypes hrank).symm) hpoints).2⟩
    rw [linearized, show (f.row i).kind.rank = .gaussian from hrank]
    exact haffine.linearizingAffine_eq hr hshape
  | vector =>
    rw [show (f.row i).kind.rank = .vector from hrank] at hcoefficients
    obtain ⟨part, ws, hpart, hparttypes⟩ := hparts hrank values htyped
    obtain ⟨hws, hsame, m, A, b, haffine⟩ := hcoefficients s.bulk values part ws hvalues htyped' hpart
    obtain ⟨-, hmem⟩ := hf.lawful.parted hresidual hf.connected hi values part ws hpart
    have hpartpoints : ∀ a ∈ part.handles, a.Points s.layout := fun a ha => hpoints a (hmem a ha).1
    obtain ⟨ws', hws', hparttyped⟩ := exists_values hs hpartpoints haffine.euclidean
    obtain rfl := Except.ok.inj (hws.symm.trans hws')
    obtain ⟨r, hr, -⟩ := haffine.residual hparttyped
    obtain ⟨hshape, hexplicit⟩ := hlinearized haffine hr hparttyped hparttypes hpartpoints
    refine ⟨values, r, m, _, hvalues, ?_, hshape, ?_, hexplicit⟩
    · exact (hsame s.bulk values ws hvalues htyped' hws).symm.trans hr
    · rw [linearized, show (f.row i).kind.rank = .vector from hrank]
      dsimp only
      rw [hpart, Checked.ok_bind]
      exact haffine.linearizing_eq hparttyped hr

/-- A stack of affine factors that can be evaluated is linearised. -/
theorem exists_stackLinearized (hf : f.Proper s.layout n) (hresidual : f.kind.hasResidual = true)
    (haffine : ∀ i, i < n → (f.row i).Affine) (heven : f.Even n) (hs : s.WellFormed)
    {b : Block α} (hb : f.stackResiduals s.bulk = .ok b) :
    ∃ F, f.stackLinearized s.bulk = .ok F := by
  obtain ⟨types, hparts, htypes⟩ : ∃ types,
      (f.kind.rank = .vector → ∀ i, i < n → ∀ values, Typed f.types values →
        ∃ part ws, (f.row i).component values = .ok (part, ws) ∧ part.types = types) ∧
      (f.kind.rank = .gaussian → types = f.types) := by
    cases hrank : f.kind.rank with
    | scalar => simp [FactorClass.hasResidual, hrank] at hresidual
    | gaussian => exact ⟨f.types, by simp, fun _ => rfl⟩
    | vector =>
      obtain ⟨types, halike⟩ := heven.alike hrank
      exact ⟨types, fun _ => halike, by simp⟩
  -- the residuals were stacked, so they have one dimension
  obtain ⟨rs, hrs, hstack⟩ := Checked.bind_eq_ok hb
  obtain ⟨shape, hne, hshapes⟩ := Block.shape_eq_of_stack? (fitting_eq_ok hstack)
  unfold overRows at hrs
  rw [hf.rows, Checked.ok_bind, List.mapM_map] at hrs
  have hresiduals := Checked.forall₂_of_mapM hrs
  have hdimension : ∃ m, ∀ i, i < n → ∃ values g, (f.row i).values s.bulk = .ok values ∧
      (f.row i).linearized values = .ok g ∧ Explicit s.layout types m g := by
    refine ⟨shape.headD 0, fun i hi => ?_⟩
    obtain ⟨values, r, m, g, hvalues, hr, hshape, hg, hexplicit⟩ :=
      (haffine i hi).exists_linearized hf hresidual hs hi (fun h => hparts h i hi) htypes
    have hi' : i < rs.length := by rwa [← hresiduals.length_eq, List.length_range]
    have hget := hresiduals.get (i := i) (by simpa using hi) hi'
    simp only [List.get_eq_getElem, List.getElem_range, Function.comp_apply, hvalues,
      Checked.ok_bind, hr] at hget
    have hm : shape = [m] := by
      rw [← hshapes _ (List.getElem_mem hi'), ← Except.ok.inj hget]
      exact hshape
    rw [hm]
    exact ⟨values, g, hvalues, hg, hexplicit⟩
  obtain ⟨m, hrow⟩ := hdimension
  obtain ⟨gs, hgs, hexplicit⟩ := Checked.mapM_forall₂ (l := List.range n)
    (f := fun i => do linearized (f.row i) (← (f.row i).values s.bulk))
    (P := fun _ g => Explicit s.layout types m g) (by
      intro i hi
      obtain ⟨values, g, hvalues, hg, hexplicit⟩ := hrow i (List.mem_range.1 hi)
      exact ⟨g, by rw [hvalues, Checked.ok_bind, hg], hexplicit⟩)
  have hnegs : gs ≠ [] := by
    rw [← List.length_pos_iff, ← hexplicit.length_eq, hresiduals.length_eq]
    exact List.length_pos_of_ne_nil hne
  obtain ⟨F, hF⟩ := exists_stack?_of_explicit hnegs fun g hg => by
    obtain ⟨i, hi, rfl⟩ := List.getElem_of_mem hg
    exact hexplicit.get (hexplicit.length_eq ▸ hi) hi
  refine ⟨F, ?_⟩
  unfold stackLinearized overRows
  rw [heven.inherited]
  dsimp only
  rw [hf.rows, Checked.ok_bind, List.mapM_map]
  refine (congrArg (· >>= fun gs => fitting (stack? gs)) hgs).trans ?_
  rw [Checked.ok_bind, hF, fitting_some]

omit [DecidableEq C] in
/-- A differentiable class with an affine residual. -/
theorem AffineIn.affine {A : List (Nat → Nat → α)} {b : Nat → α} (h : f.AffineIn m A b)
    (hrank : f.kind.rank = .vector) (hown : OwnPart f.kind) : f.Affine := by
  refine ⟨h.euclidean, ?_⟩
  rw [hrank]
  intro read values part ws hvalues _ hpart
  have hself : f.component values = .ok (f, values) := component_of_ownPart hown (by rw [hrank]; simp)
    fun t ht => VariableType.isDifferentiable_of_isEuclidean (h.euclidean t ht)
  cases hself.symm.trans hpart
  exact ⟨hvalues, fun _ _ _ hvalues _ hws => by
    obtain rfl := Except.ok.inj (hvalues.symm.trans hws)
    rfl, m, A, b, h⟩

/-! ## Residuals -/

/-- Stacks that agree one by one have the same residuals. -/
theorem stackResiduals_of_agrees (hrows : f.rows = .ok ((List.range n).map f.row))
    (hF : F.rows = .ok ((List.range n).map F.row))
    (hagrees : ∀ i, i < n → Agrees (f.row i) (F.row i) p d) :
    f.stackResiduals p.bulk = F.stackResiduals d.bulk := by
  unfold stackResiduals overRows
  rw [hrows, hF, Checked.ok_bind, Checked.ok_bind, List.mapM_map, List.mapM_map]
  refine congrArg (· >>= fun rs => fitting (Block.stack? rs)) (Checked.mapM_congr fun i hi => ?_)
  obtain ⟨values, ws, m, r, q, hvalues, hr, hshape, hws, hq, hqshape, hentry⟩ :=
    hagrees i (List.mem_range.1 hi)
  have hsame : q = r := Tensor.ext_entry (hqshape.trans hshape.symm) fun j hj =>
    hentry j (by rwa [hqshape, Shape.volume_row] at hj)
  simp only [Function.comp_apply, hvalues, hws, Checked.ok_bind, hr, hq, hsame]

end Factor

namespace FactorGraph

variable {C α : Type} [DecidableEq C] [FactorFamily C] [LinearOrder α] [ExactScalar α]
  {graph : FactorGraph C α} {linear : LinearGraph C α} {s p : Store C α} {d : Vectors C α}

/-- Every group is linearised factor by factor, in parts that are alike. -/
def Even (graph : FactorGraph C α) : Prop :=
  ∀ key b f n, graph.buffers.get? key = some b → b.factors = .ok f → f.rowCount = .ok n → f.Even n

/-- The residuals of an affine graph, where its store was moved along tangent vectors, are those of the
linearisation at these vectors. -/
theorem Affine.residuals_eq (haffine : graph.Affine) (hs : s.WellFormed) (hg : graph.Proper s.layout)
    (h : graph.linearize s = .ok linear) (hp : s.Moves d p) (hd : d.Fits linear.unknowns) :
    graph.residuals p.bulk = linear.residuals d.bulk := by
  obtain ⟨htangent, image, hentries, himage⟩ := hg.linearize hs h
  unfold residuals LinearGraph.residuals LinearGraph.overGroups Table.mapM Table.filterMapM
  rw [hentries]
  refine congrArg (· >>= fun buffers => Except.ok (⟨buffers⟩ : Vectors C α))
    (foldlM_images (fun e he out => ?_) _)
  obtain ⟨c, hc, hlinearizes⟩ := haffine.becomes hg (Table.get?_eq_some_iff.2 he) (himage e he)
  obtain ⟨f, F, n, m, hf, hF, hrows, hFlinear, hagrees⟩ :=
    haffine.rows_agree hg htangent hp hd (Table.get?_eq_some_iff.2 he) hlinearizes
  have hresiduals : e.2.hasResiduals = true := by
    have hbecomes := himage e he
    rw [hc] at hbecomes
    exact hbecomes.1
  rw [hc]
  simp only [hresiduals, if_true, hf, hF, Checked.ok_bind]
  rw [Factor.stackResiduals_of_agrees hrows hFlinear.rows_eq hagrees]
  cases F.stackResiduals d.bulk <;> rfl

/-- An affine graph that can be evaluated at a store is linearised there. -/
theorem Affine.exists_linearize (haffine : graph.Affine) (heven : graph.Even) (hs : s.WellFormed)
    (hg : graph.Proper s.layout) (h : ∃ e, graph.residuals s.bulk = .ok e) :
    ∃ linear, graph.linearize s = .ok linear := by
  obtain ⟨e, he⟩ := h
  obtain ⟨buffers, hbuffers, -⟩ := Checked.bind_eq_ok he
  obtain ⟨image, himage, -⟩ := Table.exists_images hbuffers
  obtain ⟨z, hz, -⟩ := hs.tangentZeros
  obtain ⟨groups, hgroups⟩ : ∃ groups, graph.linearStacks s.bulk = .ok groups := by
    refine Table.exists_filterMapM fun e he => ?_
    have hget := Table.get?_eq_some_iff.2 he
    obtain ⟨f, n, hf, hn, hresidual, hrows⟩ := haffine e.1 e.2 hget
    obtain ⟨f', hcontent, hstack, hproper⟩ := hg e.1 e.2 hget
    have hf' : e.2.factors = .ok f' := by rw [Buffer.factors, hcontent, hstack]
    obtain rfl := Except.ok.inj (hf.symm.trans hf')
    obtain ⟨k, hk⟩ := hproper hresidual
    obtain rfl := Except.ok.inj (hn.symm.trans hk.rowCount)
    have hresiduals : e.2.hasResiduals = true := by
      rw [Buffer.hasResiduals, hcontent]
      exact hresidual
    have hevaluated := himage e he
    simp only [hresiduals, if_true, hf, Checked.ok_bind] at hevaluated
    obtain ⟨b, hb, -⟩ := Checked.bind_eq_ok hevaluated
    obtain ⟨F, hF⟩ := Factor.exists_stackLinearized hk hresidual hrows
      (heven e.1 e.2 f n hget hf hn) hs hb
    exact ⟨_, by simp only [hresiduals, if_true, hf, Checked.ok_bind, hF]; rfl⟩
  exact ⟨⟨groups, z⟩, by rw [linearize, hgroups, Checked.ok_bind, hz]; rfl⟩

def priorKey : Key Catalogue :=
  .group ⟨.prior, [.real 2], [[.leaf], [.node .diagonalNoise 1, .leaf]], [[], [2], [2]]⟩

def linkKey : Key Catalogue :=
  .group ⟨.jacobian, [.real 2, .real 2], [[.node .tuple 2, .leaf, .leaf], [.leaf]],
    [[], [], [1, 2], [1, 2], [1]]⟩

/-- Two points of the plane, with a prior on each, and a link that subtracts one coordinate of the
first from the sum of the second, addressed from the end. -/
def anchored : FactorGraph Catalogue ℚ where
  buffers := ⟨[
    (priorKey, .of (.factors ⟨.prior, [⟨.real 2, .ints (.generate [2] fun i => i)⟩],
      [.leaf (.reals (.generate [2, 2] fun i => i)),
        .node .diagonalNoise [.leaf (.reals (.generate [2, 2] (· + 1)))]]⟩) (.factors .prior)),
    (linkKey, .of (.factors ⟨.jacobian,
      [⟨.real 2, .ints (.generate [1] fun _ => 0)⟩, ⟨.real 2, .ints (.generate [1] fun _ => -1)⟩],
      [.node .tuple [.leaf (.reals (.generate [1, 1, 2] fun i => i)), .leaf (.full [1, 1, 2] (-1))],
        .leaf (.full [1, 1] 3)]⟩) (.factors .jacobian))], by decide⟩

def anchoredStart : Store Catalogue ℚ :=
  ⟨.ofList [(.type (.real 2), .of (.values (.leaf (.reals (.generate [2, 2] fun i => 5 - i))))
    (.values (.real 2)))]⟩

/-- A displacement of both points. -/
def anchoredStep : Vectors Catalogue ℚ :=
  ⟨.ofList [(.type (.real 2), .ofVectors (.type (.real 2)) (.reals (.generate [2, 2] (2 * ·))))]⟩

theorem anchoredStart_wellFormed : anchoredStart.WellFormed := by
  refine Table.forall_get? ?_
  rw [show anchoredStart.buffers.entries = [_] from rfl, List.forall_mem_singleton]
  exact ⟨.real 2, _, 2, rfl, rfl, rfl, rfl, by omega, fun _ => rfl⟩

theorem anchored_addresses {n : Nat} {index : Nat → Int}
    (h : ∀ i, i < n → ∃ place, target 2 (index i) = some place) :
    Handle.Addresses (α := ℚ) ⟨.real 2, .ints (.generate [n] index)⟩ anchoredStart.layout n :=
  Handle.addresses_generate (by decide +kernel) h

theorem anchored_proper : anchored.Proper anchoredStart.layout := by
  refine Table.forall_get? ?_
  rw [show anchored.buffers.entries = [_, _] from rfl, List.forall_mem_cons, List.forall_mem_singleton]
  constructor
  · refine ⟨_, rfl, rfl, fun _ => ⟨2, rfl, by simp, ?_, Factor.rowwise_of_inherited rfl, trivial⟩⟩
    refine List.forall_mem_singleton.2 (anchored_addresses fun i hi => ⟨i, Access.locate_of_lt hi⟩)
  · have haddressed : ∀ a ∈ [(⟨.real 2, .ints (.generate [1] fun _ => 0)⟩ : Handle (Block ℚ)),
        ⟨.real 2, .ints (.generate [1] fun _ => -1)⟩], a.Addresses anchoredStart.layout 1 := by
      rw [List.forall_mem_cons, List.forall_mem_singleton]
      exact ⟨anchored_addresses fun i _ => ⟨0, rfl⟩, anchored_addresses fun i _ => ⟨1, rfl⟩⟩
    refine ⟨_, rfl, rfl, fun _ => ⟨1, rfl, by simp, haddressed, Factor.rowwise_of_inherited rfl, ?_⟩⟩
    refine ⟨?_, 1, ?_⟩
    · intro t ht
      obtain rfl : t = .real 2 := by simpa [Factor.types] using ht
      exact VariableType.isVector_real 2
    · show Factor.Linear _ 1 ⟨.jacobian, _, [.node _ (List.map .leaf [_, _]), .leaf _]⟩ 1
      exact .jacobian (by simp) (.cons rfl (.cons rfl .nil)) rfl haddressed

theorem anchored_affine : anchored.Affine := by
  refine Table.forall_get? ?_
  rw [show anchored.buffers.entries = [_, _] from rfl, List.forall_mem_cons, List.forall_mem_singleton]
  constructor
  · refine ⟨_, 2, rfl, rfl, rfl, fun i _ => ?_⟩
    have hprior : Factor.AffineIn (⟨.prior, [⟨.real 2, Block.row (.ints (.generate [2] fun i => i)) i⟩],
        [.leaf (.reals (Tensor.row (.generate [2, 2] fun k => (k : ℚ)) i)),
          (Noise.diagonal (.reals (Tensor.row (.generate [2, 2] fun k => (k : ℚ) + 1) i))).tree id]⟩ :
        FactorStack Catalogue ℚ) 2 [_] _ := Factor.affineIn_prior rfl rfl (.diagonal rfl)
    exact hprior.affine rfl ⟨nofun, nofun⟩
  · obtain ⟨f, hcontent, hstack, hproper⟩ := anchored_proper linkKey _ rfl
    obtain ⟨n, hn⟩ := hproper (by
      obtain rfl := Stack.factors.inj (Option.some.inj hstack)
      rfl)
    obtain rfl := Stack.factors.inj (Option.some.inj hstack)
    exact ⟨_, n, rfl, hn.rowCount, rfl, fun i hi => hn.lawful.affine_row rfl hi⟩

theorem anchored_even : anchored.Even := by
  intro key b f n hb
  refine Table.forall_get? (P := fun _ b => b.factors = .ok f → f.rowCount = .ok n → f.Even n) ?_
    key b hb
  rw [show anchored.buffers.entries = [_, _] from rfl, List.forall_mem_cons, List.forall_mem_singleton]
  constructor
  · rintro ⟨⟩ -
    exact Factor.even_of_ownPart (show Factor.OwnPart _ from ⟨by simp, by simp⟩) rfl
      (by simp [Factor.types]; rfl) n
  · rintro ⟨⟩ -
    exact Factor.even_of_ownPart (show Factor.OwnPart _ from ⟨by simp, by simp⟩) rfl
      (by simp [Factor.types]; rfl) n

end FactorGraph

end LeastSquares
