import LeastSquares.Proofs.Array.Block
import LeastSquares.Proofs.Checked
import LeastSquares.Proofs.Numeric.Slope
import LeastSquares.Factor.Derivative

/-!
# The gradient of an error and the Jacobian of its residual

Both are read off one evaluation of the residual over traced numbers. The error is half the squared
norm of the residual, so its slope along an input is the sum over the residual of each coordinate times
its slope. The rows of the Jacobian are these slopes.
-/

namespace LeastSquares

open Traced

section Slopes

variable {α : Type} [LinearOrder α] [ExactScalar α]

/-- Cells that are no scalars depend on no input. -/
theorem Block.slope_of_kind {b : Block (Traced α)} (hb : b.kind ≠ .real) {k : Nat}
    (hk : k < b.shape.volume) (i : Nat) : (b.toReals.entry k).slope i = 0 := by
  cases b with
  | bools t =>
    rw [toReals, Tensor.entry_map hk]
    rfl
  | ints t =>
    rw [toReals, Tensor.entry_map hk]
    rfl
  | reals t => exact absurd rfl hb

theorem Block.slope_sum (b : Block (Traced α)) (i : Nat) : b.sum.value.slope i =
    ∑ k ∈ Finset.range b.shape.volume, (b.toReals.entry k).slope i := by
  have hconst : b.kind ≠ .real → b.sum.kind ≠ .real → b.sum.shape = [] → b.sum.value.slope i =
      ∑ k ∈ Finset.range b.shape.volume, (b.toReals.entry k).slope i := by
    intro hb hsum hshape
    rw [value, slope_of_kind hsum (by rw [hshape]; exact Nat.one_pos),
      Finset.sum_eq_zero fun k hk => slope_of_kind hb (Finset.mem_range.1 hk) i]
  cases b with
  | bools t => exact hconst (by simp [kind]) (by simp [sum, int, kind]) rfl
  | ints t => exact hconst (by simp [kind]) (by simp [sum, int, kind]) rfl
  | reals t =>
    show (Scalar.sum t.cells).slope i = _
    rw [Scalar.sum, ← Array.foldl_toList, slope_foldl_add, t.toList_cells, List.map_map,
      sum_map_range]
    show (0 : α) + _ = _
    rw [zero_add]
    rfl

/-- The products of the cells of a block with themselves. -/
theorem Block.slope_mul_self (b : Block (Traced α)) :
    ∃ p, b.mul? b = some p ∧ p.shape = b.shape ∧ ∀ k, k < b.shape.volume → ∀ i,
      (p.toReals.entry k).slope i = 2 * ((b.toReals.entry k).value * (b.toReals.entry k).slope i) := by
  have hconst : ∀ p : Block (Traced α), p.kind ≠ .real → b.kind ≠ .real → p.shape = b.shape →
      ∀ k, k < b.shape.volume → ∀ i, (p.toReals.entry k).slope i =
        2 * ((b.toReals.entry k).value * (b.toReals.entry k).slope i) := by
    intro p hp hb hshape k hk i
    rw [slope_of_kind hp (hshape ▸ hk), slope_of_kind hb hk, mul_zero, mul_zero]
  cases b with
  | bools t =>
    refine ⟨.bools (.generate t.shape fun k => and (t.entry k) (t.entry k)), ?_, rfl,
      hconst _ (by simp [kind]) (by simp [kind]) rfl⟩
    simp [mul?, arith?, kind, Kind.join, toBools, Tensor.zipWith?_of_shape_eq]
  | ints t =>
    refine ⟨.ints (.generate t.shape fun k => Scalar.wrap (Traced α) (t.entry k * t.entry k)), ?_,
      rfl, hconst _ (by simp [kind]) (by simp [kind]) rfl⟩
    simp [mul?, arith?, kind, Kind.join, toInts, Tensor.zipWith?_of_shape_eq]
  | reals t =>
    obtain ⟨u, hu, hshape, hentry⟩ := zipWith?_of_shape (f := (· * ·)) (rfl : t.shape = t.shape)
    refine ⟨.reals u, ?_, hshape, fun k hk i => ?_⟩
    · rw [mul?, arith?_of_real (by simp), toReals_reals, hu]
      rfl
    · rw [toReals_reals, toReals_reals, hentry k hk, slope_mul]
      ring

/-- The slope of half the squared norm. -/
theorem Factor.halfSquaredNorm_slope (b : Block (Traced α)) :
    ∃ e, halfSquaredNorm b = .ok e ∧ ∀ i, e.value.slope i =
      ∑ k ∈ Finset.range b.shape.volume, (b.toReals.entry k).value * (b.toReals.entry k).slope i := by
  obtain ⟨p, hp, hshape, hslope⟩ := b.slope_mul_self
  refine ⟨p.sum.scaled Scalar.half, by rw [halfSquaredNorm, hp]; rfl, fun i => ?_⟩
  have hsum : p.sum.shape.volume = 1 := by cases p <;> rfl
  have hvalue : (p.sum.scaled Scalar.half).value = Scalar.half * p.sum.value := by
    rw [Block.value, Block.scaled, Block.toReals, Tensor.entry_map]
    · rfl
    · rw [Block.shape_toReals, hsum]
      exact Nat.one_pos
  have hhalf : (Scalar.half : Traced α).value = 1 / 2 := by
    rw [Scalar.half, value_div]
    show (Scalar.half : α) = 1 / 2
    exact Scalar.half_eq
  have hconst : (Scalar.half : Traced α).slope i = 0 := rfl
  rw [hvalue, slope_mul, hhalf, hconst, Block.slope_sum, hshape, zero_mul, zero_add, Finset.sum_mul]
  refine Finset.sum_congr rfl fun k hk => ?_
  rw [hslope k (Finset.mem_range.1 hk)]
  ring

end Slopes

/-! ## Inputs -/

theorem length_offsets (ds : List Nat) (start : Nat) : (offsets ds start).length = ds.length := by
  induction ds generalizing start with
  | nil => rfl
  | cons d ds ih => simp [offsets, ih]

/-- Each run ends within the extent of all. -/
theorem offsets_add_le {β : Type} (dim : β → Nat) (ts : List β) (start : Nat) :
    ∀ p ∈ ts.zip (offsets (ts.map dim) start),
      p.2 + dim p.1 ≤ start + totalExtent (ts.map dim) := by
  induction ts generalizing start with
  | nil => simp
  | cons t ts ih =>
    intro p hp
    rw [List.map_cons, totalExtent]
    rcases List.mem_cons.1 hp with rfl | hp
    · show start + dim t ≤ _
      omega
    · have := ih (start + dim t) p hp
      omega

theorem le_offsets (ds : List Nat) (start : Nat) : ∀ s ∈ offsets ds start, start ≤ s := by
  induction ds generalizing start with
  | nil => simp [offsets]
  | cons d ds ih =>
    intro s hs
    rcases List.mem_cons.1 hs with rfl | hs
    · exact le_rfl
    · exact (Nat.le_add_right _ _).trans (ih (start + d) s hs)

namespace Factor

section Inputs

variable {C ι α : Type}

theorem map_fst_inputs (f : Factor C ι (Block α)) : f.inputs.map Prod.fst = f.types :=
  List.map_fst_zip (by rw [length_offsets, tangentDims, List.length_map])

/-- There is one entry for each variable, with its type. -/
theorem forall₂_inputs (f : Factor C ι (Block α)) :
    List.Forall₂ (fun a p => p.1 = a.type) f.handles f.inputs := by
  have heq : List.Forall₂ (fun s t => t = s) (f.handles.map (·.type)) (f.inputs.map Prod.fst) := by
    rw [map_fst_inputs]
    exact List.forall₂_same.2 fun _ _ => rfl
  rwa [List.forall₂_map_left_iff, List.forall₂_map_right_iff] at heq

theorem inputs_le (f : Factor C ι (Block α)) :
    ∀ p ∈ f.inputs, p.2 + p.1.tangentDim ≤ f.tangentSize := by
  intro p hp
  have := offsets_add_le VariableType.tangentDim f.types 0 p hp
  rwa [Nat.zero_add] at this

end Inputs

/-! ## The Jacobian of a residual -/

/-- The factor with the residual `J d - e`, by the blocks of `J` and by `e`. -/
def ofJacobian {C ι α : Type} (handles : List (Handle ι)) (blocks : List (Tensor α))
    (error : Tensor α) : Factor C ι (Block α) :=
  ⟨.jacobian, handles,
    [.node .tuple (blocks.map fun B => .leaf (.reals B)), .leaf (.reals error)]⟩

variable {C ι α : Type} [FactorFamily C] [LinearOrder α] [ExactScalar α]

/-- A combination of the rows of each block. -/
def pullback (blocks : List (Tensor α)) (m : Nat) (y : Nat → α) : List (Block α) :=
  blocks.map fun B => .reals (.generate [B.shape.getD 1 0] fun c =>
    ∑ j ∈ Finset.range m, y j * B.entry (j * B.shape.getD 1 0 + c))

omit [FactorFamily C] in
theorem pullback_congr {blocks : List (Tensor α)} {m : Nat} {y z : Nat → α}
    (h : ∀ j, j < m → y j = z j) : pullback blocks m y = pullback blocks m z := by
  refine List.map_congr_left fun B _ => congrArg Block.reals (Tensor.generate_congr fun c _ => ?_)
  exact Finset.sum_congr rfl fun j hj => by rw [h j (Finset.mem_range.1 hj)]

/-- The transpose of an explicit Jacobian. -/
theorem adjoint_jacobian (handles : List (Handle ι)) (label : Label) {blocks : List (Block α)}
    (error : Tree (Block α)) {y : Tensor α} {m : Nat} (hblocks : ∀ B ∈ blocks, ∃ n, B.shape = [m, n])
    (hy : y.shape = [m]) :
    (⟨.jacobian, handles, [.node label (blocks.map .leaf), error]⟩ : Factor C ι (Block α)).adjoint
        (.reals y) =
      .ok (blocks.map fun B => .reals (.generate [B.shape.getD 1 0] fun c =>
        ∑ j ∈ Finset.range m, y.entry j * B.toReals.entry (j * B.shape.getD 1 0 + c))) := by
  obtain ⟨gs, hgs, hspec⟩ := Checked.mapM_forall₂
    (f := fun B : Block α => fitting ((Block.reals y).vecMul? B))
    (P := fun B g => Block.reals (.generate [B.shape.getD 1 0] fun c =>
        ∑ j ∈ Finset.range m, y.entry j * B.toReals.entry (j * B.shape.getD 1 0 + c)) = g)
    fun B hB => by
      obtain ⟨n, hn⟩ := hblocks B hB
      obtain ⟨u, hu, hushape, hentry⟩ := Block.vecMul?_reals hy hn
      refine ⟨_, by rw [hu, fitting_some], ?_⟩
      rw [hn]
      exact congrArg Block.reals (Tensor.eq_generate hushape fun c hc =>
        hentry c (by simpa using hc)).symm
  show (blocks.map .leaf).mapM
    (fun j => Value.array j >>= fun b => fitting ((Block.reals y).vecMul? b)) = _
  rw [List.mapM_map, ← eq_map_of_forall₂ hspec]
  exact hgs

theorem adjoint_ofJacobian {handles : List (Handle ι)} {blocks : List (Tensor α)} {error y : Tensor α}
    {m : Nat} (hblocks : ∀ B ∈ blocks, ∃ n, B.shape = [m, n]) (hy : y.shape = [m]) :
    (ofJacobian handles blocks error : Factor C ι (Block α)).adjoint (.reals y) =
      .ok (pullback blocks m y.entry) := by
  have hreals : ∀ B ∈ blocks.map Block.reals, ∃ n, B.shape = [m, n] := List.forall_mem_map.2 hblocks
  have h := adjoint_jacobian (C := C) handles .tuple (.leaf (.reals error)) hreals hy
  rw [List.map_map, List.map_map] at h
  exact h

/-- The slopes of a residual along the inputs of one variable. -/
def slopeBlock (R : Block (Traced α)) (m : Nat) (p : VariableType × Nat) : Tensor α :=
  .generate [m, p.1.tangentDim] fun k =>
    (R.toReals.entry (k / p.1.tangentDim)).slope (p.2 + k % p.1.tangentDim)

/-- A row of the Jacobian holds the slopes of one coordinate. -/
theorem getD_jacobianRows {size m i k : Nat} (results : Tensor (Traced α)) (hi : i < m)
    (hk : k < size) :
    ((jacobianRows size m results).getD i #[]).getD k Scalar.zero = (results.entry i).slope k := by
  have hrow : (jacobianRows size m results).getD i #[] = derivatives size ((List.range m).map
      fun j => (results.entry j, if j = i then Scalar.one else Scalar.zero)) := by
    simp [jacobianRows, Array.getD, hi]
  rw [hrow, getD_derivatives _ hk, List.map_map, Block.sum_map_range,
    Finset.sum_eq_single_of_mem i (Finset.mem_range.2 hi)]
  · simp
  · intro j _ hj
    simp [hj]

section Linearizing

variable {f : Factor C ι (Block α)} {values : List (Found α)} {moving : List (Found (Traced α))}
  {R : Block (Traced α)} {m : Nat}

theorem linearizing_eq (hmoving : f.movingValues values = .ok moving)
    (hR : f.still.residual moving = .ok R) (hm : R.shape = [m]) :
    f.linearizing values = .ok (ofJacobian f.handles (f.inputs.map (slopeBlock R m))
      (.generate [m] fun j => -(R.toReals.entry j).value)) := by
  have hblock : ∀ p ∈ f.inputs, Tree.leaf (Block.reals (.generate [m, p.1.tangentDim] fun k =>
      ((jacobianRows f.tangentSize m R.toReals).getD (k / p.1.tangentDim) #[]).getD
        (p.2 + k % p.1.tangentDim) Scalar.zero)) = .leaf (.reals (slopeBlock R m p)) := by
    intro p hp
    refine congrArg (fun t => Tree.leaf (Block.reals t)) (Tensor.generate_congr fun k hk => ?_)
    rw [Shape.volume_matrix] at hk
    have hdim : 0 < p.1.tangentDim := by
      refine Nat.pos_of_ne_zero fun h => ?_
      simp [h] at hk
    have hle := inputs_le f p hp
    have hmod := Nat.mod_lt k hdim
    exact getD_jacobianRows _ ((Nat.div_lt_iff_lt_mul hdim).2 hk) (by omega)
  unfold linearizing
  rw [hmoving, Checked.ok_bind, hR, Checked.ok_bind]
  simp only [hm]
  rw [List.map_congr_left hblock, ofJacobian, List.map_map]
  rfl

omit [LinearOrder α] [ExactScalar α] in
/-- Where there is a residual, the error is half its squared norm. -/
theorem error_of_residual [Scalar α] {f : Factor C ι (Block α)} {values : List (Found α)}
    {r : Block α} (h : f.residual values = .ok r) : f.error values = halfSquaredNorm r := by
  unfold error
  split
  next c hkind =>
    split
    next hrank =>
      unfold residual at h
      simp only [hkind] at h
      rw [if_pos hrank] at h
      cases h
    next => rw [h, Checked.ok_bind]
  next => rw [h, Checked.ok_bind]

theorem errorGradient_eq (hmoving : f.movingValues values = .ok moving)
    (hR : f.still.residual moving = .ok R) (hm : R.shape = [m]) :
    f.errorGradient values = .ok (pullback (f.inputs.map (slopeBlock R m)) m
      fun j => (R.toReals.entry j).value) := by
  obtain ⟨e, he, hslope⟩ := halfSquaredNorm_slope R
  rw [hm, Shape.volume_row] at hslope
  have hblock : ∀ p ∈ f.inputs, Block.reals (.generate [p.1.tangentDim] fun c =>
      (derivatives f.tangentSize [(e.value, Scalar.one)]).getD (p.2 + c) Scalar.zero) =
      .reals (.generate [p.1.tangentDim] fun c => ∑ j ∈ Finset.range m,
        (R.toReals.entry j).value * (slopeBlock R m p).entry (j * p.1.tangentDim + c)) := by
    intro p hp
    refine congrArg Block.reals (Tensor.generate_congr fun c hc => ?_)
    rw [Shape.volume_row] at hc
    have hle := inputs_le f p hp
    rw [getD_derivatives _ (by omega), List.map_singleton, List.sum_singleton]
    dsimp only
    rw [Scalar.one_eq, one_mul, hslope]
    refine Finset.sum_congr rfl fun j hj => ?_
    have hj := Finset.mem_range.1 hj
    rw [slopeBlock, Tensor.entry_generate (by simpa using Shape.cell_lt hj hc),
      Shape.cell_div hc, Shape.cell_mod hc]
  unfold errorGradient
  rw [hmoving, Checked.ok_bind, error_of_residual hR, he, Checked.ok_bind]
  dsimp only
  rw [List.map_congr_left hblock, pullback, List.map_map]
  rfl

/-- The linear factor made from a factor has its handles. The gradient of the factor's error is the
transpose of the Jacobian applied to the residual. -/
theorem linearizing_spec {g : Factor C ι (Block α)} (h : f.linearizing values = .ok g) :
    ∃ m blocks error, g = ofJacobian f.handles blocks error ∧
      List.Forall₂ (fun h B => B.shape = [m, h.type.tangentDim]) f.handles blocks ∧
      error.shape = [m] ∧
      f.errorGradient values = .ok (pullback blocks m fun j => -error.entry j) := by
  obtain ⟨moving, hmoving, hrest⟩ := Checked.bind_eq_ok h
  obtain ⟨R, hR, hrest⟩ := Checked.bind_eq_ok hrest
  obtain ⟨m, hm⟩ : ∃ m, R.shape = [m] := by
    split at hrest
    next m hm => exact ⟨m, hm⟩
    next => cases hrest
  obtain rfl := Except.ok.inj (h.symm.trans (linearizing_eq hmoving hR hm))
  refine ⟨m, _, _, rfl, ?_, rfl, ?_⟩
  · rw [List.forall₂_map_right_iff]
    exact f.forall₂_inputs.imp fun a p hp => by rw [← hp]; rfl
  · rw [errorGradient_eq hmoving hR hm]
    refine congrArg Except.ok (pullback_congr fun j hj => ?_)
    rw [Tensor.entry_generate (by simpa using hj), neg_neg]

end Linearizing

end Factor

end LeastSquares
