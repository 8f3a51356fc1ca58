import LeastSquares.Proofs.Factor.Affine

/-!
# Affine residuals along a displacement

When the values of Euclidean variables are moved along tangent vectors, an affine residual changes by
its coefficients applied to these. So the residual at the moved values is that of the linear factor
made from it, at the tangent vectors.
-/

namespace LeastSquares

/-- A value of a Euclidean type, a tangent vector, and the value that is reached along it. -/
structure Displacement (α : Type) where
  start : Found α
  along : Found α
  stop : Found α

namespace Displacement

variable {α : Type} [LinearOrder α] [ExactScalar α]

/-- The end has the coordinates of the start and the tangent vector together. -/
structure Of (t : VariableType) (d : Displacement α) : Prop where
  euclidean : t.isEuclidean = true
  start : d.start.value.IsReal t.shapes
  stop : d.stop.value.IsReal t.shapes
  along : ∃ u, d.along.value = .leaf (.reals u) ∧ u.shape = [t.tangentDim]
  coordinate : ∀ c, c < t.tangentDim →
    d.stop.value.coordinate c = d.start.value.coordinate c + d.along.value.coordinate c

variable {types : List VariableType} {ds : List (Displacement α)}

omit [LinearOrder α] [ExactScalar α] in
theorem length_cells_of_isReal [Scalar α] {t : VariableType} (ht : t.isEuclidean = true) {v : Value α}
    (hv : v.IsReal t.shapes) : v.cells.length = t.tangentDim := by
  rw [hv.length_cells, VariableType.tangentDim_eq ht]
  rfl

theorem Of.length_along {t : VariableType} {d : Displacement α} (h : d.Of t) :
    d.along.value.cells.length = t.tangentDim := by
  obtain ⟨u, hu, hshape⟩ := h.along
  have hcells : d.along.value.cells = u.cells.toList := by
    rw [hu]
    exact List.append_nil _
  rw [hcells, Array.length_toList, u.size_eq, hshape, Shape.volume_row]

/-- What is read at the ends is what is read at the starts and along the way together. -/
theorem combined_stop (h : List.Forall₂ (fun t d => d.Of t) types ds) (A : List (Nat → α)) :
    combined id A (ds.map (·.stop)) =
      combined id A (ds.map (·.start)) + combined id A (ds.map (·.along)) := by
  induction h generalizing A with
  | nil => simp [combined]
  | @cons t d types ds hd _ ih =>
    cases A with
    | nil => simp [combined]
    | cons a A =>
      simp only [List.map_cons, Factor.combined_cons, ih A]
      rw [length_cells_of_isReal hd.euclidean hd.start, length_cells_of_isReal hd.euclidean hd.stop,
        hd.length_along, add_add_add_comm, ← Finset.sum_add_distrib]
      refine congrArg (· + _) (Finset.sum_congr rfl fun c hc => ?_)
      rw [hd.coordinate c (Finset.mem_range.1 hc)]
      exact mul_add ..

theorem typed_start (h : List.Forall₂ (fun t d => d.Of t) types ds) :
    Typed types (ds.map (·.start)) :=
  List.forall₂_map_right_iff.2 (h.imp fun _ _ hd => hd.start)

theorem typed_stop (h : List.Forall₂ (fun t d => d.Of t) types ds) :
    Typed types (ds.map (·.stop)) :=
  List.forall₂_map_right_iff.2 (h.imp fun _ _ hd => hd.stop)

end Displacement

namespace Factor

variable {C ι α : Type} [FactorFamily C] [LinearOrder α] [ExactScalar α]
  {f : Factor C ι (Block α)} {m : Nat} {A : List (Nat → Nat → α)} {b : Nat → α}

omit [FactorFamily C] in
/-- The blocks that are made of coefficients have them. -/
theorem combined_coefficientBlocks {types : List VariableType} {ds : List (Displacement α)}
    (h : List.Forall₂ (fun t d => d.Of t) types ds) {j : Nat} (hj : j < m)
    (A : List (Nat → Nat → α)) :
    combined id ((coefficientBlocks types m A).map fun B => coefficients (.reals B) j)
        (ds.map (·.along)) =
      combined id (A.map fun a => a j) (ds.map (·.along)) := by
  induction h generalizing A with
  | nil => simp [combined]
  | @cons t d types ds hd _ ih =>
    cases A with
    | nil => simp [combined, coefficientBlocks]
    | cons a A =>
      have hblocks : coefficientBlocks (t :: types) m (a :: A) =
        .generate [m, t.tangentDim] (fun k => a (k / t.tangentDim) (k % t.tangentDim)) ::
          coefficientBlocks types m A := rfl
      rw [hblocks]
      simp only [List.map_cons, combined_cons, ih A, hd.length_along]
      refine congrArg (· + _) (Finset.sum_congr rfl fun c hc => ?_)
      have hc := Finset.mem_range.1 hc
      have hentry : coefficients (.reals (.generate [m, t.tangentDim]
          fun k => a (k / t.tangentDim) (k % t.tangentDim))) j c = a j c := by
        show Tensor.entry (.generate [m, t.tangentDim] fun k => a (k / t.tangentDim) (k % t.tangentDim))
          (j * t.tangentDim + c) = _
        rw [Tensor.entry_generate (by simpa using Shape.cell_lt hj hc), Shape.cell_div hc,
          Shape.cell_mod hc]
      rw [hentry]

omit [FactorFamily C] in
theorem applies_coefficientBlocks {types : List VariableType} {ds : List (Displacement α)}
    (h : List.Forall₂ (fun t d => d.Of t) types ds) (hlength : A.length = types.length) :
    List.Forall₂ (Applies m) ((coefficientBlocks types m A).map .reals) (ds.map (·.along)) := by
  induction h generalizing A with
  | nil =>
    rw [List.length_eq_zero_iff.1 hlength]
    exact .nil
  | @cons t d types ds hd _ ih =>
    cases A with
    | nil => cases hlength
    | cons a A =>
      obtain ⟨u, hu, hshape⟩ := hd.along
      exact .cons ⟨t.tangentDim, u, rfl, hu, hshape⟩ (ih (by simpa using hlength))

/-- The residual at the ends is that of the linear factor made at the starts, along the way. -/
theorem AffineIn.residual_stop (h : f.AffineIn m A b) (hne : f.handles ≠ [])
    {ds : List (Displacement α)} (hds : List.Forall₂ (fun t d => d.Of t) f.types ds) :
    ∃ r r' q, f.residual (ds.map (·.start)) = .ok (.reals r) ∧ r.shape = [m] ∧
      f.residual (ds.map (·.stop)) = .ok (.reals r') ∧ r'.shape = [m] ∧
      (ofJacobian f.handles (coefficientBlocks f.types m A) (.generate [m] fun j => -r.entry j) :
        Factor C ι (Block α)).residual (ds.map (·.along)) = .ok (.reals q) ∧
      q.shape = [m] ∧ ∀ j, j < m → q.entry j = r'.entry j := by
  obtain ⟨r, hr, hshape, hentry⟩ := h.residual (Displacement.typed_start hds)
  obtain ⟨r', hr', hshape', hentry'⟩ := h.residual (Displacement.typed_stop hds)
  have happlies := applies_coefficientBlocks (m := m) hds h.length
  have hnegated : (Block.reals (.generate [m] fun j => -r.entry j)).shape = [m] := rfl
  have hblocks : (coefficientBlocks f.types m A).map Block.reals ≠ [] := by
    have hlength := (happlies.length_eq.trans (List.length_map _)).trans hds.length_eq.symm
    intro hnil
    rw [hnil, types, List.length_map] at hlength
    exact hne (List.length_eq_zero_iff.1 hlength.symm)
  obtain ⟨q, hq, hqshape, hread⟩ := residual_jacobian_lift (C := C) lifting_id f.handles .tuple
    hblocks happlies hnegated
  rw [mapFields_id, List.map_map] at hq
  refine ⟨r, r', q, hr, hshape, hr', hshape', hq, hqshape, fun j hj => ?_⟩
  have hq := hread id reading_id j hj
  rw [List.map_map] at hq
  refine hq.trans ?_
  show combined id ((coefficientBlocks f.types m A).map fun B => coefficients (.reals B) j) _ -
    Tensor.entry (.generate [m] fun j => -r.entry j) j = _
  rw [combined_coefficientBlocks hds hj, Tensor.entry_generate (by simpa using hj), sub_neg_eq_add,
    hentry j hj, hentry' j hj, Displacement.combined_stop hds]
  ring

end Factor

end LeastSquares
