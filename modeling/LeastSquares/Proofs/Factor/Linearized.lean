import LeastSquares.Proofs.Factor.Affine
import LeastSquares.Proofs.Factor.Stack
import LeastSquares.Proofs.Graph.LinearStack

/-!
# Stacks of linearised factors

Factors that were linearised one by one, and can be stacked, make a linear stack whose rows they are.
Each of them has the handles of the part of its factor that is differentiable, and the gradient of the
error of that part is the transpose of its Jacobian applied to the residual.
-/

namespace LeastSquares

/-- A single index that addresses a row of a layout. -/
def Handle.Points {C α : Type} (L : Layout C) (a : Handle (Block α)) : Prop :=
  Key.type a.type ∈ L.keys ∧ ∃ t : Tensor Int, a.index = .ints t ∧ t.shape = [] ∧
    ∃ place, target (L.rows (.type a.type)) (t.entry 0) = some place

theorem Handle.Addresses.points {C α : Type} [Scalar α] {L : Layout C} {a : Handle (Block α)}
    {n i : Nat} (h : a.Addresses L n) (hi : i < n) :
    Handle.Points L ⟨a.type, a.index.row i⟩ := by
  obtain ⟨hkey, t, ht, hshape, hplace⟩ := h
  refine ⟨hkey, t.row i, by rw [ht]; rfl, by rw [Tensor.shape_row, hshape]; rfl, ?_⟩
  obtain ⟨place, hplace⟩ := hplace i hi
  refine ⟨place, ?_⟩
  rwa [Tensor.entry_row hshape i (show 0 < 1 by omega), Shape.volume_nil, Nat.mul_one]

/-- An index addresses rows if each of its rows does. -/
theorem Handle.addresses_of_points {C α : Type} [Scalar α] {L : Layout C} {a : Handle (Block α)}
    {n : Nat} (hn : 0 < n) (hkind : a.index.kind = .int) (hshape : a.index.shape = [n])
    (h : ∀ i, i < n → Handle.Points L ⟨a.type, a.index.row i⟩) : a.Addresses L n := by
  obtain ⟨type, index⟩ := a
  cases index with
  | ints t =>
    refine ⟨(h 0 hn).1, t, rfl, hshape, fun i hi => ?_⟩
    obtain ⟨-, u, hu, -, place, hplace⟩ := h i hi
    obtain rfl : t.row i = u := Block.ints.inj hu
    refine ⟨place, ?_⟩
    rwa [Tensor.entry_row hshape i (show 0 < 1 by omega), Shape.volume_nil, Nat.mul_one] at hplace
  | bools | reals => cases hkind

namespace Factor

/-! ## Stacks of explicit Jacobians -/

section Stacks

variable {C α : Type} [DecidableEq C] [Scalar α] {L : Layout C}

/-- A single factor with an explicit Jacobian whose parts fit each other and whose handles address
rows of a layout. -/
def LinearRow (L : Layout C) (g : FactorStack C α) : Prop :=
  ∃ m handles blocks error, g = ofJacobian handles blocks error ∧ handles ≠ [] ∧
    List.Forall₂ (fun a B => B.shape = [m, a.type.tangentDim]) handles blocks ∧
    error.shape = [m] ∧ ∀ a ∈ handles, a.Points L

omit [DecidableEq C] [Scalar α] in
theorem ofJacobian_eq (handles : List (Handle (Block α))) (blocks : List (Tensor α))
    (error : Tensor α) : (ofJacobian handles blocks error : FactorStack C α) =
      ⟨.jacobian, handles, [.node .tuple ((blocks.map .reals).map .leaf), .leaf (.reals error)]⟩ := by
  rw [List.map_map]
  rfl

section Leaves

variable {handles : List (Handle (Block α))} {blocks : List (Block α)} {error : Block α} {k : Nat}

omit [DecidableEq C] [Scalar α] in
theorem leaves_jacobian : (⟨.jacobian, handles, [.node .tuple (blocks.map .leaf), .leaf error]⟩ :
    FactorStack C α).leaves = handles.map (·.index) ++ (blocks ++ [error]) := by
  rw [leaves, List.flatMap_cons, Tree.leaves_node_map_leaf]
  rfl

omit [DecidableEq C] [Scalar α] in
theorem leafAt_handle (hk : k < handles.length) :
    (⟨.jacobian, handles, [.node .tuple (blocks.map .leaf), .leaf error]⟩ :
      FactorStack C α).leafAt k = (handles[k]).index := by
  rw [leafAt, leaves_jacobian, List.getD_append _ _ _ _ (by simpa using hk),
    List.getD_eq_getElem _ _ (by simpa using hk), List.getElem_map]

omit [DecidableEq C] [Scalar α] in
theorem leafAt_block (hk : k < blocks.length) :
    (⟨.jacobian, handles, [.node .tuple (blocks.map .leaf), .leaf error]⟩ :
      FactorStack C α).leafAt (handles.length + k) = blocks[k] := by
  rw [leafAt, leaves_jacobian, List.getD_append_right _ _ _ _ (by simp), List.length_map,
    Nat.add_sub_cancel_left, List.getD_append _ _ _ _ hk, List.getD_eq_getElem _ _ hk]

omit [DecidableEq C] [Scalar α] in
theorem leafAt_error : (⟨.jacobian, handles, [.node .tuple (blocks.map .leaf), .leaf error]⟩ :
    FactorStack C α).leafAt (handles.length + blocks.length) = error := by
  rw [leafAt, leaves_jacobian, List.getD_append_right _ _ _ _ (by simp), List.length_map,
    Nat.add_sub_cancel_left, List.getD_append_right _ _ _ _ le_rfl, Nat.sub_self]
  rfl

end Leaves

omit [DecidableEq C] [Scalar α] in
/-- A factor that has the frame of an explicit Jacobian has one. -/
theorem eq_jacobian_of_frame {F : FactorStack C α} {handles : List (Handle (Block α))}
    {blocks : List (Tensor α)} {error : Tensor α}
    (h : F.frame = (ofJacobian handles blocks error : FactorStack C α).frame) :
    F.types = handles.map (·.type) ∧ ∃ (Bs : List (Block α)) (e : Block α),
      F = ⟨.jacobian, F.handles, [.node .tuple (Bs.map .leaf), .leaf e]⟩ ∧
      Bs.length = blocks.length := by
  obtain ⟨kind, hs, fields⟩ := F
  have hkind : kind = .jacobian := congrArg (·.1) h
  have hfields : fields.map Tree.skeleton =
      [.node .tuple (blocks.map fun _ => .leaf ()), .leaf ()] := by
    refine (congrArg (·.2.2) h).trans ?_
    show [Tree.skeleton (.node .tuple (blocks.map fun B => Tree.leaf (Block.reals B))), .leaf ()] = _
    rw [Tree.skeleton_node, List.map_map]
    rfl
  refine ⟨congrArg (·.2.1) h, ?_⟩
  obtain ⟨s, t, rfl⟩ : ∃ s t, fields = [s, t] :=
    List.length_eq_two.1 (by simpa using congrArg List.length hfields)
  injection hfields with hs ht
  injection ht with ht
  obtain ⟨Bs, rfl, hlength⟩ := Tree.eq_flat_of_skeleton hs
  obtain ⟨e, rfl⟩ := Tree.eq_leaf_of_skeleton ht
  exact ⟨Bs, e, by rw [hkind], hlength⟩

omit [DecidableEq C] [Scalar α] in
/-- The indices of a row are integers, and everything else is scalars. -/
theorem LinearRow.kind_leafAt {g : FactorStack C α} (h : LinearRow L g) {p : Nat}
    (hp : p < g.leaves.length) :
    (g.leafAt p).kind = if p < g.handles.length then .int else .real := by
  obtain ⟨m, handles, blocks, error, rfl, -, -, -, hpoints⟩ := h
  have hhandles : (ofJacobian handles blocks error : FactorStack C α).handles = handles := rfl
  rw [hhandles]
  rw [ofJacobian_eq] at hp ⊢
  split
  next hlt =>
    obtain ⟨-, t, ht, -⟩ := hpoints _ (List.getElem_mem hlt)
    rw [leafAt_handle hlt, ht]
    rfl
  next hge =>
    have hreal : ∀ b ∈ blocks.map Block.reals ++ [Block.reals error], b.kind = .real := by
      intro b hb
      rcases List.mem_append.1 hb with hb | hb
      · obtain ⟨t, -, rfl⟩ := List.mem_map.1 hb
        rfl
      · rw [List.mem_singleton.1 hb]
        rfl
    rw [leafAt_eq hp]
    simp only [leaves_jacobian]
    rw [List.getElem_append_right (by simpa using hge)]
    exact hreal _ (List.getElem_mem _)

/-- Rows that can be stacked make a linear stack, and they are its rows. -/
theorem linear_of_stack? {gs : List (FactorStack C α)} {F : FactorStack C α}
    (hstack : stack? gs = some F) (hgs : ∀ g ∈ gs, LinearRow L g) :
    (∀ i (hi : i < gs.length), F.row i = gs[i]) ∧ ∃ m, F.Linear L gs.length m := by
  obtain ⟨hne, hframes, -⟩ := stack?_spec hstack
  have hpos := List.length_pos_of_ne_nil hne
  have hfirst := List.getElem_mem hpos
  have hhandles : ∀ g ∈ gs, g.handles.length = F.handles.length :=
    fun g hg => length_handles_eq (hframes g hg)
  have hrows := fun i (hi : i < gs.length) => rows_of_stack? (i := i)
    (fun p => if p < F.handles.length then .int else .real) hstack (fun g hg p hp => by
      rw [(hgs g hg).kind_leafAt hp, hhandles g hg]) hi
  refine ⟨fun i hi => (hrows i hi).1, ?_⟩
  obtain ⟨m, handles, blocks, error, hg, hconnected, hshapes, herror, hpoints⟩ := hgs _ hfirst
  have hleaf := (hrows 0 hpos).2
  have hframe := hframes _ hfirst
  rw [hg] at hleaf hframe
  obtain ⟨htypes, Bs, e, hF, hBs⟩ := eq_jacobian_of_frame hframe.symm
  have hlength : handles.length = F.handles.length := by
    rw [← hhandles _ hfirst, hg]
    rfl
  have htype : ∀ k (hk : k < F.handles.length) (hk' : k < handles.length),
      (F.handles[k]).type = (handles[k]).type := by
    intro k hk hk'
    have hget := congrArg (fun l => l[k]?) htypes
    simpa [types, hk, hlength] using hget
  -- what is known of each leaf, told of the indices, the blocks and the constant
  rw [ofJacobian_eq] at hleaf
  have hcount : F.leaves.length = F.handles.length + (Bs.length + 1) := by
    rw [hF, leaves_jacobian]
    simp
  have hindex : ∀ k (hk : k < F.handles.length), (F.handles[k]).index.kind = .int ∧
      (F.handles[k]).index.shape = [gs.length] := by
    intro k hk
    have hk' : k < handles.length := hlength ▸ hk
    obtain ⟨hkind, hshape⟩ := hleaf k (by omega)
    have hFleaf : F.leafAt k = (F.handles[k]).index := by
      conv_lhs => rw [hF]
      exact leafAt_handle hk
    obtain ⟨-, t, ht, htshape, -⟩ := hpoints _ (List.getElem_mem hk')
    rw [hFleaf, if_pos hk] at hkind
    rw [hFleaf, leafAt_handle hk', ht] at hshape
    exact ⟨hkind, hshape.trans (congrArg (gs.length :: ·) htshape)⟩
  have hblock : ∀ k (hk : k < Bs.length) (hk' : k < blocks.length),
      (Bs[k]).shape = gs.length :: (blocks[k]).shape := by
    intro k hk hk'
    obtain ⟨-, hshape⟩ := hleaf (F.handles.length + k) (by omega)
    have hFleaf : F.leafAt (F.handles.length + k) = Bs[k] := by
      conv_lhs => rw [hF]
      exact leafAt_block hk
    rwa [hFleaf, ← hlength, leafAt_block (by simpa using hk'), List.getElem_map] at hshape
  have hconstant : e.shape = gs.length :: error.shape := by
    obtain ⟨-, hshape⟩ := hleaf (F.handles.length + Bs.length) (by omega)
    have hFleaf : F.leafAt (F.handles.length + Bs.length) = e := by
      conv_lhs => rw [hF]
      exact leafAt_error
    have hlast : handles.length + (blocks.map Block.reals).length = F.handles.length + Bs.length := by
      rw [hlength, List.length_map, hBs]
    rwa [hFleaf, ← hlast, leafAt_error] at hshape
  refine ⟨m, ?_⟩
  rw [hF]
  refine .jacobian ?_ (List.forall₂_iff_get.2 ⟨?_, fun k hk hk' => ?_⟩) ?_ fun a ha => ?_
  · exact List.ne_nil_of_length_pos (hlength ▸ List.length_pos_of_ne_nil hconnected)
  · rw [← hlength, hshapes.length_eq, hBs]
  · rw [List.get_eq_getElem, List.get_eq_getElem, hblock k hk' (hBs ▸ hk'), htype k hk (hlength ▸ hk)]
    exact congrArg (gs.length :: ·) (hshapes.get (hlength ▸ hk) (hBs ▸ hk'))
  · rw [hconstant, herror]
  · obtain ⟨k, hk, rfl⟩ := List.getElem_of_mem ha
    refine Handle.addresses_of_points hpos (hindex k hk).1 (hindex k hk).2 fun i hi => ?_
    obtain ⟨m', handles', blocks', error', hg', -, -, -, hpoints'⟩ := hgs _ (List.getElem_mem hi)
    have hhandle : (⟨(F.handles[k]).type, (F.handles[k]).index.row i⟩ : Handle (Block α)) ∈
        (F.row i).handles :=
      List.mem_map_of_mem (f := fun a : Handle (Block α) => (⟨a.type, a.index.row i⟩ :
        Handle (Block α))) ha
    rw [(hrows i hi).1, hg'] at hhandle
    exact hpoints' _ hhandle

end Stacks

/-! ## The part that is linearised -/

section Parts

variable {C ι β : Type} [FactorFamily C] [Scalar β]
  {f part : Factor C ι (Block β)} {values ws : List (Found β)}

/-- A class without a rule of its own for the differentiable part is its own. -/
def OwnPart (kind : FactorClass C) : Prop :=
  kind ≠ .switchingBetween ∧ ∀ c, kind = .client c → FactorFamily.component c = none

/-- The part of the factor that is linearised connects some of its variables, each with a tangent
space. -/
def Parted (f : Factor C ι (Block β)) : Prop :=
  ∀ values part ws, f.component values = .ok (part, ws) →
    part.handles ≠ [] ∧ ∀ a ∈ part.handles, a ∈ f.handles ∧ a.type.isDifferentiable = true

omit [Scalar β] in
theorem checkDifferentiable_eq_ok : f.checkDifferentiable = .ok () ↔
    ∀ t ∈ f.types, t.isDifferentiable = true := by
  rw [checkDifferentiable, require]
  split
  next h => simpa using h
  next h => simpa using h

theorem component_eq (hown : OwnPart f.kind) (hrank : f.kind.rank ≠ .scalar)
    (values : List (Found β)) :
    f.component values = f.checkDifferentiable >>= fun _ => .ok (f, values) := by
  obtain ⟨kind, handles, fields⟩ := f
  unfold component
  cases kind with
  | switchingBetween => exact absurd rfl hown.1
  | client c =>
    have hrank : ¬ FactorFamily.rank c = .scalar := hrank
    simp only [hown.2 c rfl, if_neg hrank, Checked.pure_eq_ok]
  | _ => rfl

theorem component_of_ownPart (hown : OwnPart f.kind) (hrank : f.kind.rank ≠ .scalar)
    (hdiff : ∀ t ∈ f.types, t.isDifferentiable = true) : f.component values = .ok (f, values) := by
  rw [component_eq hown hrank, checkDifferentiable_eq_ok.2 hdiff, Checked.ok_bind]

theorem parted_of_ownPart (hown : OwnPart f.kind) (hrank : f.kind.rank ≠ .scalar)
    (connected : f.handles ≠ []) : f.Parted := by
  intro values part ws h
  rw [component_eq hown hrank] at h
  obtain ⟨_, hcheck, hpair⟩ := Checked.bind_eq_ok h
  cases hpair
  exact ⟨connected, fun a ha =>
    ⟨ha, checkDifferentiable_eq_ok.1 hcheck _ (List.mem_map_of_mem ha)⟩⟩

/-- A relative motion that a label chooses is linearised in its two ends. -/
theorem parted_switching (hkind : f.kind = .switchingBetween) {t : VariableType}
    (htypes : f.types = [t, .discrete, t]) (ht : t.isDifferentiable = true) : f.Parted := by
  intro values part ws h
  obtain ⟨kind, handles, fields⟩ := f
  obtain rfl := hkind
  replace h : chosenBetween ⟨.switchingBetween, handles, fields⟩ values = .ok (part, ws) := h
  unfold chosenBetween at h
  split at h
  next start label stop movements noise a l b hhandles _ =>
    obtain rfl : handles = [start, label, stop] := hhandles
    obtain ⟨array, -, h⟩ := Checked.bind_eq_ok h
    obtain ⟨movement, -, h⟩ := Checked.bind_eq_ok h
    cases h
    simp only [types, List.map_cons, List.map_nil, List.cons.injEq, and_true] at htypes
    obtain ⟨hstart, -, hstop⟩ := htypes
    refine ⟨by simp, fun c hc => ?_⟩
    rcases List.mem_cons.1 hc with rfl | hc
    · exact ⟨by simp, hstart ▸ ht⟩
    · obtain rfl := List.mem_singleton.1 hc
      exact ⟨by simp, hstop ▸ ht⟩
  next => cases h

end Parts

/-! ## One linearised factor -/

section Rows

variable {C α : Type} [FactorFamily C] [LinearOrder α] [ExactScalar α]
  {f g : FactorStack C α} {values : List (Found α)}

/-- The linear factor has the handles of the differentiable part of another, blocks and a constant
that fit them, and the transpose of the blocks takes the negated constant to the gradient of the error
of that part. -/
def Approximates (f : FactorStack C α) (values : List (Found α)) (g : FactorStack C α) : Prop :=
  ∃ part ws m blocks error, f.component values = .ok (part, ws) ∧
    g = ofJacobian part.handles blocks error ∧
    List.Forall₂ (fun a B => B.shape = [m, a.type.tangentDim]) part.handles blocks ∧
    error.shape = [m] ∧ part.errorGradient ws = .ok (pullback blocks m fun j => -error.entry j)

/-- A factor that is linearised by differentiation. -/
theorem approximates_of_vector (hrank : f.kind.rank = .vector) (h : f.linearized values = .ok g) :
    Approximates f values g := by
  unfold linearized at h
  rw [hrank] at h
  obtain ⟨⟨part, ws⟩, hpart, h⟩ := Checked.bind_eq_ok h
  obtain ⟨m, blocks, error, hg, hshapes, herror, hgradient⟩ := linearizing_spec h
  exact ⟨part, ws, m, blocks, error, hpart, hg, hshapes, herror, hgradient⟩

omit [FactorFamily C] [LinearOrder α] [ExactScalar α] in
theorem forall₂_coefficientBlocks {m : Nat} {A : List (Nat → Nat → α)}
    (hlength : A.length = f.types.length) :
    List.Forall₂ (fun a B => B.shape = [m, a.type.tangentDim]) f.handles
      (coefficientBlocks f.types m A) := by
  have hmap : List.Forall₂ (fun (t : VariableType) (B : Tensor α) => B.shape = [m, t.tangentDim])
      f.types (coefficientBlocks f.types m A) := by
    rw [coefficientBlocks, List.forall₂_map_right_iff]
    generalize f.types = types at hlength
    induction types generalizing A with
    | nil =>
      cases A with
      | nil => exact .nil
      | cons => cases hlength
    | cons t types ih =>
      cases A with
      | nil => cases hlength
      | cons a A => exact .cons rfl (ih (by simpa using hlength))
  exact List.forall₂_map_left_iff.1 hmap

/-- A factor that is linearised by the rows of its transpose. -/
theorem AffineBy.approximates {m : Nat} {A : List (Nat → Nat → α)} {b : Nat → α}
    (h : f.AffineBy m A b) (hrank : f.kind.rank = .gaussian) (hown : OwnPart f.kind)
    (hvalues : Typed f.types values) :
    ∃ g, f.linearized values = .ok g ∧ Approximates f values g := by
  obtain ⟨r, hr, hshape, -⟩ := h.residual hvalues
  have hdiff : ∀ t ∈ f.types, t.isDifferentiable = true := fun t ht =>
    VariableType.isDifferentiable_of_isEuclidean (h.euclidean t ht)
  refine ⟨_, ?_, f, values, m, coefficientBlocks f.types m A, .generate [m] fun j => -r.entry j,
    component_of_ownPart hown (by rw [hrank]; simp) hdiff, rfl, forall₂_coefficientBlocks h.length,
    rfl, ?_⟩
  · unfold linearized
    rw [hrank]
    exact h.linearizingAffine_eq hr hshape
  · rw [h.errorGradient_eq hvalues hr]
    refine congrArg Except.ok (pullback_congr fun j hj => ?_)
    rw [Tensor.entry_generate (by simpa using hj), neg_neg]

/-- What approximates a factor is a row of a linear stack. -/
theorem Approximates.linearRow {L : Layout C} (h : Approximates f values g) (hparted : f.Parted)
    (hpoints : ∀ a ∈ f.handles, a.type.isDifferentiable = true → a.Points L) : LinearRow L g := by
  obtain ⟨part, ws, m, blocks, error, hpart, hg, hshapes, herror, -⟩ := h
  obtain ⟨hne, hmem⟩ := hparted values part ws hpart
  exact ⟨m, part.handles, blocks, error, hg, hne, hshapes, herror, fun a ha =>
    hpoints a (hmem a ha).1 (hmem a ha).2⟩

end Rows

/-! ## Linearised stacks -/

section Stacks

variable {C α : Type} [DecidableEq C] [FactorFamily C] [LinearOrder α] [ExactScalar α]
  {L : Layout C} {F G : FactorStack C α} {read : Reader α} {n m : Nat}

/-- The rows of a linear stack approximate those of another, at the values that are read for them. -/
def RowsApproximate (read : Reader α) (F : FactorStack C α) (n : Nat) (G : FactorStack C α) : Prop :=
  ∀ i, i < n → ∃ values, (F.row i).values read = .ok values ∧
    (F.row i).linearized values = .ok (G.row i) ∧ Approximates (F.row i) values (G.row i)

/-- A stack becomes what its factors become one by one. -/
def Rowwise (F : FactorStack C α) : Prop :=
  ∀ (read : Reader α) G, F.stackLinearized read = .ok G →
    ∃ gs, F.overRows read linearized = .ok gs ∧ stack? gs = some G

/-- A class without a rule of its own for stacks. -/
theorem rowwise_of_inherited (h : stackRule? F.kind = none) : F.Rowwise := by
  intro read G hG
  unfold stackLinearized at hG
  rw [h] at hG
  obtain ⟨gs, hgs, hG⟩ := Checked.bind_eq_ok hG
  exact ⟨gs, hgs, fitting_eq_ok hG⟩

/-- A stack that is linearised row by row becomes a linear stack. -/
theorem stackLinearized_spec (hrowwise : F.Rowwise) (h : F.stackLinearized read = .ok G)
    (hrows : F.rows = .ok ((List.range n).map F.row))
    (hparted : ∀ i, i < n → (F.row i).Parted)
    (hpoints : ∀ i, i < n → ∀ a ∈ (F.row i).handles, a.type.isDifferentiable = true → a.Points L)
    (happrox : ∀ i, i < n → ∀ values g, (F.row i).values read = .ok values →
      (F.row i).linearized values = .ok g → Approximates (F.row i) values g) :
    0 < n ∧ (∃ m, G.Linear L n m) ∧ RowsApproximate read F n G := by
  obtain ⟨gs, hgs, hstack⟩ := hrowwise read G h
  unfold overRows at hgs
  rw [hrows, Checked.ok_bind, List.mapM_map] at hgs
  have hspec := Checked.forall₂_of_mapM hgs
  have hlength : gs.length = n := by rw [← hspec.length_eq, List.length_range]
  have hrow : ∀ i (hi : i < gs.length), ∃ values, (F.row i).values read = .ok values ∧
      (F.row i).linearized values = .ok gs[i] ∧ Approximates (F.row i) values gs[i] := by
    intro i hi
    have hget := hspec.get (i := i) (by simpa [hlength] using hi) hi
    simp only [List.get_eq_getElem, List.getElem_range, Function.comp_apply] at hget
    obtain ⟨values, hvalues, hlinear⟩ := Checked.bind_eq_ok hget
    exact ⟨values, hvalues, hlinear, happrox i (hlength ▸ hi) values _ hvalues hlinear⟩
  have hlinear : ∀ g ∈ gs, LinearRow L g := by
    intro g hg
    obtain ⟨i, hi, rfl⟩ := List.getElem_of_mem hg
    obtain ⟨values, -, -, happ⟩ := hrow i hi
    exact happ.linearRow (hparted i (hlength ▸ hi)) (hpoints i (hlength ▸ hi))
  obtain ⟨hGrows, m, hG⟩ := linear_of_stack? hstack hlinear
  rw [hlength] at hG
  refine ⟨?_, ⟨m, hG⟩, fun i hi => ?_⟩
  · rw [← hlength]
    exact List.length_pos_of_ne_nil (stack?_spec hstack).1
  · rw [hGrows i (hlength ▸ hi)]
    exact hrow i (hlength ▸ hi)

omit [DecidableEq C] [FactorFamily C] in
/-- The row of a linear stack that is an explicit Jacobian. -/
theorem Linear.row_ofJacobian (hG : G.Linear L n m) {i m' : Nat} {handles : List (Handle (Block α))}
    {blocks : List (Tensor α)} {error : Tensor α} (h : G.row i = ofJacobian handles blocks error)
    (herror : error.shape = [m']) : m' = m ∧ ∀ j, G.offset i j = error.entry j := by
  cases hG with
  | @jacobian m label hs bs e _ _ he =>
    have hfields : [Tree.node label (bs.map fun B => .leaf (B.row i)), .leaf (e.row i)] =
        [.node .tuple (blocks.map fun B => .leaf (.reals B)), .leaf (.reals error)] := by
      rw [row_jacobian] at h
      exact congrArg (·.fields) h
    injection hfields with _ hfields
    injection hfields with hfields
    injection hfields with hrow
    have hshape := Block.shape_row he i
    rw [hrow] at hshape
    refine ⟨?_, fun j => ?_⟩
    · simpa using herror.symm.trans hshape
    · rw [offset]
      dsimp only
      rw [hrow, Block.toReals_reals]
  | scalarJacobian => cases congrArg (·.kind) h

/-- The gradient of a stack is the transpose of the linear stack applied to its residuals at zero. -/
theorem stackGradient_eq_stackAdjoint (hrows : F.rows = .ok ((List.range n).map F.row))
    (hG : G.Linear L n m) (happrox : RowsApproximate read F n G) {y : Tensor α}
    (hy : y.shape = [n, m])
    (hentry : ∀ i, i < n → ∀ j, j < m → y.entry (i * m + j) = -G.offset i j) (out : Vectors C α) :
    F.stackGradient read out = G.stackAdjoint (.reals y) out := by
  rw [hG.stackAdjoint_eq hy]
  unfold stackGradient overRows
  rw [hrows, Checked.ok_bind, List.mapM_map]
  refine congrArg (· >>= fun contributions => accumulate contributions out)
    (Checked.mapM_congr fun i hi => ?_)
  replace hi := List.mem_range.1 hi
  obtain ⟨values, hvalues, -, part, ws, m', blocks, error, hpart, hrow, hshapes, herror, hgradient⟩ :=
    happrox i hi
  obtain ⟨rfl, hoffset⟩ := hG.row_ofJacobian hrow herror
  have hblocks : ∀ B ∈ blocks, ∃ d, B.shape = [m', d] := fun B hB => by
    obtain ⟨k, hk, rfl⟩ := List.getElem_of_mem hB
    exact ⟨_, hshapes.get (hshapes.length_eq ▸ hk) hk⟩
  have hyrow : (y.row i).shape = [m'] := by
    rw [Tensor.shape_row, hy]
    rfl
  have hpull : pullback blocks m' (fun j => -error.entry j) = pullback blocks m' (y.row i).entry := by
    refine pullback_congr fun j hj => ?_
    rw [Tensor.entry_row hy i (by simpa using hj), Shape.volume_row, hentry i hi j hj, hoffset]
  simp only [Function.comp_apply, hvalues, Checked.ok_bind, hpart, hgradient, hrow]
  rw [show (Block.reals y).row i = .reals (y.row i) from rfl, adjoint_ofJacobian hblocks hyrow, hpull]
  rfl

end Stacks

end Factor

end LeastSquares
