import LeastSquares.Proofs.Buffer.Store
import LeastSquares.Catalogue

/-!
# Values of Euclidean types

A value of a Euclidean type, whatever its parts are, is the row of its coordinates: flattening and
unflattening undo each other, a tangent vector is added to the coordinates, and the one between two
values is the difference of theirs. Stacked values are moved each along its own row of a step.
-/

namespace LeastSquares

open Store (retractRows)

/-- Stacked values of the same shapes, by the form of their rows. -/
theorem Value.isReal_rows_iff {α : Type} {shapes : Tree Shape} {v : Value α} {n : Nat} :
    v.IsReal (shapes.map (n :: ·)) ↔ v.form = Value.rowsForm n (shapes.map fun s => (.real, s)) := by
  rw [Value.IsReal, Value.rowsForm, Tree.map_map, Tree.map_map]

namespace VariableType

section Coordinates

variable {α : Type} [Scalar α] {t : VariableType}

theorem unflatten_flatten {x : Value α} (hx : x.IsReal t.shapes) :
    ∃ flat, x.flatten = .ok (.reals flat) ∧ flat.shape = [t.paramDim] ∧
      t.unflatten (.reals flat) = .ok x := by
  obtain ⟨flat, hflat, hshape, hcells⟩ := Value.flatten_of_real hx
  obtain ⟨y, hy, hreal, hycells⟩ := Value.unflatten_of_shape t.shapes hshape
  refine ⟨flat, hflat, hshape, hy.trans (congrArg Except.ok ?_)⟩
  exact hreal.eq_of_cells hx (hycells.trans hcells)

theorem flatten_unflatten {flat : Tensor α} (hshape : flat.shape = [t.paramDim]) :
    ∃ x, t.unflatten (.reals flat) = .ok x ∧ x.IsReal t.shapes ∧ x.flatten = .ok (.reals flat) := by
  obtain ⟨x, hx, hreal, hcells⟩ := Value.unflatten_of_shape t.shapes hshape
  obtain ⟨flat', hflat, hshape', hcells'⟩ := Value.flatten_of_real hreal
  refine ⟨x, hx, hreal, hflat.trans (congrArg (fun u => Except.ok (Block.reals u)) ?_)⟩
  exact Tensor.ext_cells (hshape'.trans hshape.symm) (hcells'.trans hcells)

end Coordinates

variable {α : Type} [LinearOrder α] [ExactScalar α] {t : VariableType} {x y : Value α} {d e : Tensor α}

/-- Values of a Euclidean type with the same coordinates are the same. -/
theorem eq_of_coordinates (ht : t.isEuclidean = true) (hx : x.IsReal t.shapes) (hy : y.IsReal t.shapes)
    (h : ∀ c, c < t.tangentDim → x.coordinate c = y.coordinate c) : x = y :=
  hx.eq_of_coordinates hy (by rwa [tangentDim_eq ht] at h)

theorem retract_localCoordinates (ht : t.isEuclidean = true) (hx : x.IsReal t.shapes)
    (hy : y.IsReal t.shapes) :
    ∃ d, t.localCoordinates x y = .ok (.ofBlock (.reals d)) ∧ d.shape = [t.tangentDim] ∧
      t.retract x (.ofBlock (.reals d)) = .ok y := by
  obtain ⟨d, hd, hshape, hentry⟩ := localCoordinates_euclidean ht hx hy
  obtain ⟨z, hz, hreal, hcoordinate⟩ := retract_euclidean ht hx hshape
  refine ⟨d, hd, hshape, hz.trans (congrArg Except.ok (eq_of_coordinates ht hreal hy fun c hc => ?_))⟩
  rw [hcoordinate c hc, hentry c hc, add_sub_cancel]

theorem localCoordinates_retract (ht : t.isEuclidean = true) (hx : x.IsReal t.shapes)
    (hd : d.shape = [t.tangentDim]) :
    ∃ y, t.retract x (.ofBlock (.reals d)) = .ok y ∧ y.IsReal t.shapes ∧
      t.localCoordinates x y = .ok (.ofBlock (.reals d)) := by
  obtain ⟨y, hy, hreal, hcoordinate⟩ := retract_euclidean ht hx hd
  obtain ⟨u, hu, hshape, hentry⟩ := localCoordinates_euclidean ht hx hreal
  refine ⟨y, hy, hreal, hu.trans (congrArg (fun u => Except.ok (Value.ofBlock (.reals u))) ?_)⟩
  refine Tensor.ext_entry (hshape.trans hd.symm) fun c hc => ?_
  rw [hshape, Shape.volume_row] at hc
  rw [hentry c hc, hcoordinate c hc, add_sub_cancel_left]

/-- Moving along two tangent vectors one after the other is moving along their sum. -/
theorem retract_retract (ht : t.isEuclidean = true) (hx : x.IsReal t.shapes)
    (hd : d.shape = [t.tangentDim]) (he : e.shape = [t.tangentDim]) :
    ∃ y z sum, t.retract x (.ofBlock (.reals d)) = .ok y ∧ t.retract y (.ofBlock (.reals e)) = .ok z ∧
      (Block.reals d).add? (.reals e) = some sum ∧ t.retract x (.ofBlock sum) = .ok z := by
  obtain ⟨y, hy, hyreal, hycoordinate⟩ := retract_euclidean ht hx hd
  obtain ⟨z, hz, hzreal, hzcoordinate⟩ := retract_euclidean ht hyreal he
  obtain ⟨u, hu, hshape, hentry⟩ := Block.add?_reals (hd.trans he.symm)
  obtain ⟨w, hw, hwreal, hwcoordinate⟩ := retract_euclidean ht hx (hshape.trans hd)
  refine ⟨y, z, .reals u, hy, hz, hu, hw.trans (congrArg Except.ok ?_)⟩
  refine eq_of_coordinates ht hwreal hzreal fun c hc => ?_
  have hcell : c < d.shape.volume := by rwa [hd, Shape.volume_row]
  rw [hwcoordinate c hc, hzcoordinate c hc, hycoordinate c hc, hentry c hcell, add_assoc]

/-- Stacked values are moved row by row, each coordinate by its own. -/
theorem retractRows_euclidean (ht : t.isEuclidean = true) {n : Nat} {v : Value α}
    (hv : v.IsReal (t.shapes.map (n :: ·))) (hd : d.shape = [n, t.tangentDim]) :
    ∃ w, retractRows t v (.ofBlock (.reals d)) = .ok w ∧ w.IsReal (t.shapes.map (n :: ·)) ∧
      ∀ i, i < n → t.retract (v.row i) (.ofBlock (.reals (d.row i))) = .ok (w.row i) ∧
        ∀ c, c < t.tangentDim →
          (w.row i).coordinate c = (v.row i).coordinate c + d.entry (i * t.tangentDim + c) := by
  have hform := Value.isReal_rows_iff.1 hv
  obtain ⟨w, hw, hwform, hrows⟩ :=
    Store.retractRows_real (isDifferentiable_of_isEuclidean ht) hform hd
  refine ⟨w, hw, Value.isReal_rows_iff.2 hwform, fun i hi => ⟨hrows i hi, fun c hc => ?_⟩⟩
  have hrow : (d.row i).shape = [t.tangentDim] := by rw [Tensor.shape_row, hd, List.tail_cons]
  obtain ⟨y, hy, -, hcoordinate⟩ := retract_euclidean ht (Value.form_row hform i) hrow
  obtain rfl : y = w.row i := Except.ok.inj (hy.symm.trans (hrows i hi))
  rw [hcoordinate c hc, Tensor.entry_row hd i (by rwa [Shape.volume_row]), Shape.volume_row]

/-- The values of a Euclidean type are the rows of its coordinates, and tangent vectors are their
differences. Stacks of values are moved row by row. -/
theorem euclidean_laws (ht : t.isEuclidean = true) :
    (∀ x : Value α, x.IsReal t.shapes → ∃ flat, x.flatten = .ok (.reals flat) ∧
      flat.shape = [t.paramDim] ∧ t.unflatten (.reals flat) = .ok x) ∧
    (∀ flat : Tensor α, flat.shape = [t.paramDim] → ∃ x, t.unflatten (.reals flat) = .ok x ∧
      x.IsReal t.shapes ∧ x.flatten = .ok (.reals flat)) ∧
    (∀ x y : Value α, x.IsReal t.shapes → y.IsReal t.shapes → ∃ d,
      t.localCoordinates x y = .ok (.ofBlock (.reals d)) ∧ d.shape = [t.tangentDim] ∧
      t.retract x (.ofBlock (.reals d)) = .ok y) ∧
    (∀ (x : Value α) (d : Tensor α), x.IsReal t.shapes → d.shape = [t.tangentDim] → ∃ y,
      t.retract x (.ofBlock (.reals d)) = .ok y ∧ y.IsReal t.shapes ∧
      t.localCoordinates x y = .ok (.ofBlock (.reals d))) ∧
    (∀ (x : Value α) (d e : Tensor α), x.IsReal t.shapes → d.shape = [t.tangentDim] →
      e.shape = [t.tangentDim] → ∃ y z sum, t.retract x (.ofBlock (.reals d)) = .ok y ∧
      t.retract y (.ofBlock (.reals e)) = .ok z ∧ (Block.reals d).add? (.reals e) = some sum ∧
      t.retract x (.ofBlock sum) = .ok z) ∧
    (∀ (n : Nat) (v : Value α) (d : Tensor α), v.IsReal (t.shapes.map (n :: ·)) →
      d.shape = [n, t.tangentDim] → ∃ w, retractRows t v (.ofBlock (.reals d)) = .ok w ∧
      w.IsReal (t.shapes.map (n :: ·)) ∧
      ∀ i, i < n → t.retract (v.row i) (.ofBlock (.reals (d.row i))) = .ok (w.row i) ∧
        ∀ c, c < t.tangentDim →
          (w.row i).coordinate c = (v.row i).coordinate c + d.entry (i * t.tangentDim + c)) :=
  ⟨fun _ => unflatten_flatten, fun _ => flatten_unflatten, fun _ _ => retract_localCoordinates ht,
    fun _ _ => localCoordinates_retract ht, fun _ _ _ => retract_retract ht,
    fun _ _ _ => retractRows_euclidean ht⟩

/-! ## Pairs of a number and a point -/

def pair (a b c : ℚ) : Value ℚ := .node .tuple [.leaf (.real a), .leaf (.vector [b, c])]

/-- Two pairs, `(0, (0, 1))` and `(1, (2, 3))`. -/
def twoPairs : Value ℚ :=
  .node .tuple [.leaf (.reals (.generate [2] fun k => k)), .leaf (.reals (.generate [2, 2] fun k => k))]

theorem pair_laws :
    Catalogue.pairVariable.default = .ok (pair 1 2 3) ∧
    (∃ flat, (pair 1 2 3).flatten = .ok (.reals flat) ∧ flat.shape = [3] ∧
      Catalogue.pairVariable.unflatten (.reals flat) = .ok (pair 1 2 3)) ∧
    (∃ x, Catalogue.pairVariable.unflatten (.reals (.vector #[4, 5, 6])) = .ok x ∧
      x.flatten = .ok (Block.reals (.vector #[4, 5, 6]) : Block ℚ)) ∧
    (∃ d, Catalogue.pairVariable.localCoordinates (pair 1 2 3) (pair 4 4 4) =
        .ok (.ofBlock (.reals d)) ∧
      Catalogue.pairVariable.retract (pair 1 2 3) (.ofBlock (.reals d)) = .ok (pair 4 4 4)) ∧
    (∃ y, Catalogue.pairVariable.retract (pair 1 2 3) (.ofBlock (.vector [1, 0, -1])) = .ok y ∧
      Catalogue.pairVariable.localCoordinates (pair 1 2 3) y = .ok (.ofBlock (.vector [1, 0, -1]))) ∧
    (∃ y z sum, Catalogue.pairVariable.retract (pair 1 2 3) (.ofBlock (.vector [1, 0, -1])) = .ok y ∧
      Catalogue.pairVariable.retract y (.ofBlock (.vector [0, 2, 5])) = .ok z ∧
      (Block.vector [1, 0, -1]).add? (.vector [0, 2, 5]) = some sum ∧
      Catalogue.pairVariable.retract (pair 1 2 3) (.ofBlock sum) = .ok z) ∧
    ∃ w, retractRows Catalogue.pairVariable twoPairs
        (.ofBlock (.reals (.generate [2, 3] fun k => k))) = .ok w ∧
      (w.row 1).coordinate 2 = 3 + 5 := by
  have hpair : ∀ a b c, (pair a b c).IsReal Catalogue.pairVariable.shapes := fun _ _ _ => rfl
  have hpairs : twoPairs.IsReal (Catalogue.pairVariable.shapes.map (2 :: ·)) := rfl
  obtain ⟨hflatten, hunflatten, hlocal, hretract, htwice, hstack⟩ :=
    euclidean_laws (α := ℚ) (t := Catalogue.pairVariable) rfl
  obtain ⟨x, hx, -, hflat⟩ := hunflatten (.vector #[4, 5, 6]) rfl
  obtain ⟨d, hd, -, hmoved⟩ := hlocal _ _ (hpair 1 2 3) (hpair 4 4 4)
  obtain ⟨y, hy, -, hback⟩ := hretract _ (.vector #[1, 0, -1]) (hpair 1 2 3) rfl
  obtain ⟨w, hw, -, hrows⟩ := hstack 2 twoPairs (.generate [2, 3] fun k => k) hpairs rfl
  refine ⟨rfl, hflatten _ (hpair 1 2 3), ⟨x, hx, hflat⟩, ⟨d, hd, hmoved⟩, ⟨y, hy, hback⟩,
    htwice _ (.vector #[1, 0, -1]) (.vector #[0, 2, 5]) (hpair 1 2 3) rfl rfl, w, hw, ?_⟩
  exact ((hrows 1 (by decide)).2 2 (by decide)).trans (by decide +kernel)

end VariableType

end LeastSquares
