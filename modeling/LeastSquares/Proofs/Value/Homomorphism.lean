import LeastSquares.Proofs.Array.Homomorphism
import LeastSquares.Proofs.Checked
import LeastSquares.Factor.Evaluation

/-!
# Residuals of relative motions over other scalars

The steps from a relative motion to the error of a factor go along with a map of scalars, also where
they fail: the difference from the expected motion, the noise that weighs it, and half its squared norm.
-/

namespace LeastSquares

variable {β γ : Type} [Scalar β] [Scalar γ] (φ : ScalarHom β γ)

namespace LieGroup

/-- The relative motion of two elements of a group. -/
def relative? (g : LieGroup) (p q : Tensor β) : Option (Tensor β) := do g.mul? (← g.inverse? p) q

end LieGroup

namespace Value

theorem group?_map (v : Value β) :
    group? (v.map (Block.mapReals φ)) = (group? v).map fun (g, a) => (g, a.map φ) := by
  match v with
  | .node (.group g) [.leaf b] => exact congrArg (fun t => some (g, t)) (Block.toReals_map φ b)
  | .leaf _ | .absent | .node (.group _) [] => rfl
  | .node (.group _) [.absent] | .node (.group _) [.node ..] => rfl
  | .node (.group _) (c :: _ :: _) => cases c <;> rfl
  | .node .tuple _ | .node .list _ | .node (.fields _) _ => rfl
  | .node .fullNoise _ | .node .diagonalNoise _ => rfl

/-- The tangent vector from a relative motion to an expected one. -/
def motionResidual (g : LieGroup) (relative : Tensor β) (expected : Value β) : Checked (Block β) := do
  let (k, r) ← fitting expected.group?
  if k ≠ g then misfit
  return .reals (← fitting (g.difference? relative r))

theorem motionResidual_map (g : LieGroup) (relative : Tensor β) (expected : Value β) :
    motionResidual g (relative.map φ) (expected.map (Block.mapReals φ)) =
      (motionResidual g relative expected).map (Block.mapReals φ) := by
  unfold motionResidual
  rw [group?_map]
  cases expected.group? with
  | none => rfl
  | some p =>
    obtain ⟨k, r⟩ := p
    simp only [Option.map_some, fitting_some, Checked.ok_bind]
    split
    · rfl
    · simp only [g.difference?_map φ, fitting_map]
      cases fitting (g.difference? relative r) <;> rfl

/-- What two elements of a group tell of their residual is their relative motion. -/
theorem betweenResidual_eq {a b expected : Value β} {g : LieGroup} {p q relative : Tensor β}
    (ha : a.group? = some (g, p)) (hb : b.group? = some (g, q))
    (hrelative : g.relative? p q = some relative) :
    a.betweenResidual b expected = motionResidual g relative expected := by
  obtain ⟨back, hback, hmul⟩ := Option.bind_eq_some_iff.1 hrelative
  unfold betweenResidual motionResidual
  rw [ha, hb]
  simp only [fitting_some, Checked.ok_bind, hback, hmul, ne_eq, not_true_eq_false, false_or]

theorem betweenResidual_map (a b expected : Value β) :
    betweenResidual (a.map (Block.mapReals φ)) (b.map (Block.mapReals φ))
        (expected.map (Block.mapReals φ)) =
      (a.betweenResidual b expected).map (Block.mapReals φ) := by
  unfold betweenResidual
  simp only [group?_map]
  cases a.group? with
  | none => rfl
  | some p =>
    cases b.group? with
    | none => rfl
    | some q =>
      cases expected.group? with
      | none => rfl
      | some r =>
        simp only [Option.map_some, fitting_some, Checked.ok_bind]
        split
        · rfl
        · simp only [LieGroup.inverse?_map, LieGroup.mul?_map, LieGroup.difference?_map, fitting_map,
            Checked.map_bind, Checked.bind_map]
          rfl

end Value

namespace Noise

/-- The noise model over other scalars. -/
def map (f : β → γ) : Noise β → Noise γ
  | full root => full (root.mapReals f)
  | diagonal root => diagonal (root.mapReals f)

omit [Scalar β] [Scalar γ] in
theorem ofTree?_map (f : β → γ) (v : Value β) :
    ofTree? (v.map (Block.mapReals f)) = (ofTree? v).map (map f) := by
  match v with
  | .node .fullNoise [.leaf _] | .node .diagonalNoise [.leaf _] => rfl
  | .leaf _ | .absent | .node .fullNoise [] | .node .diagonalNoise [] => rfl
  | .node .fullNoise [.absent] | .node .fullNoise [.node ..] => rfl
  | .node .diagonalNoise [.absent] | .node .diagonalNoise [.node ..] => rfl
  | .node .fullNoise (c :: _ :: _) | .node .diagonalNoise (c :: _ :: _) => cases c <;> rfl
  | .node .tuple _ | .node .list _ | .node (.fields _) _ | .node (.group _) _ => rfl

theorem whiten_map (n : Noise β) (r : Block β) :
    (n.map φ).whiten (r.mapReals φ) = (n.whiten r).map (Block.mapReals φ) := by
  cases n with
  | full root =>
    show fitting ((root.mapReals φ).mulVec? (r.mapReals φ)) = _
    rw [Block.mulVec?_map, fitting_map]
    rfl
  | diagonal root =>
    have hshape : ∀ b : Block β, (b.mapReals φ).shape = b.shape := fun b => by cases b <;> rfl
    show (require .residualShape ((r.mapReals φ).shape = (root.mapReals φ).shape) >>= fun _ =>
      fitting ((root.mapReals φ).mul? (r.mapReals φ))) = _
    rw [Block.mul?_map, fitting_map, hshape, hshape, whiten, Checked.bind_map]

end Noise

theorem Factor.halfSquaredNorm_map (r : Block β) :
    halfSquaredNorm (r.mapReals φ) = (halfSquaredNorm r).map (Block.mapReals φ) := by
  unfold halfSquaredNorm
  rw [Block.mul?_map, fitting_map, Checked.map_bind, Checked.bind_map]
  refine bind_congr fun square => congrArg Except.ok ?_
  rw [Block.sum_map, ← φ.map_half, Block.scaled_map]

end LeastSquares
