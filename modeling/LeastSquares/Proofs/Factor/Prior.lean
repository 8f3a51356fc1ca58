import LeastSquares.Proofs.Factor.Affine

/-!
# Priors on Euclidean variables

Noise weighs a residual by a matrix, given in full or by its diagonal. So the whitened difference of a
Euclidean variable from a given value is affine in the coordinates of the variable.
-/

namespace LeastSquares

/-! ## Noise as a matrix -/

namespace Noise

/-- The noise whose root has its numbers replaced by their images. -/
def lifted {α β : Type} (lift : α → β) : Noise α → Noise β
  | full root => full (root.mapReals lift)
  | diagonal root => diagonal (root.mapReals lift)

variable {α : Type} [LinearOrder α] [ExactScalar α]

/-- The noise weighs vectors of `n` coordinates by a matrix with `m` rows. -/
inductive Weighs : Noise α → Nat → Nat → (Nat → Nat → α) → Prop where
  | full {root : Block α} {m n : Nat} : root.shape = [m, n] →
      Weighs (.full root) m n (Factor.coefficients root)
  | diagonal {root : Block α} {n : Nat} : root.shape = [n] →
      Weighs (.diagonal root) n n fun j c => if j = c then root.toReals.entry j else 0

variable {β : Type} [Scalar β] {lift : α → β} {noise : Noise α} {m n : Nat} {W : Nat → Nat → α}

theorem Weighs.whiten_lift (hlift : Lifting lift) (h : noise.Weighs m n W) {t : Tensor β}
    (ht : t.shape = [n]) :
    ∃ u, (noise.lifted lift).whiten (.reals t) = .ok (.reals u) ∧ u.shape = [m] ∧
      ∀ read, Reading lift read → ∀ j, j < m →
        read (u.entry j) = ∑ c ∈ Finset.range n, W j c * read (t.entry c) := by
  cases h with
  | full hroot =>
    obtain ⟨u, hu, hshape, hread⟩ := Factor.mulVec?_lift hlift hroot ht
    refine ⟨u, ?_, hshape, hread⟩
    show fitting _ = _
    rw [hu, fitting_some]
  | @diagonal root _ hroot =>
    have hshape : (root.mapReals lift).toReals.shape = [m] := by
      rw [Block.shape_toReals, Block.shape_mapReals, hroot]
    obtain ⟨u, hu, hushape, hentry⟩ :=
      Block.zipWith?_of_shape (f := (· * ·)) (hshape.trans ht.symm)
    refine ⟨u, ?_, hushape.trans hshape, fun read hread j hj => ?_⟩
    · have hsame : decide ((Block.reals t).shape = (root.mapReals lift).shape) = true := by
        rw [Block.shape_mapReals, hroot]
        exact decide_eq_true ht
      show (require _ _ >>= fun _ => fitting ((root.mapReals lift).mul? (.reals t))) = _
      rw [hsame, require_true, Checked.ok_bind, Block.mul?, Block.arith?_of_real (by simp),
        Block.toReals_reals, hu]
      rfl
    · rw [hentry j (by rwa [hshape, Shape.volume_row]),
        hlift.entry (by rwa [hroot, Shape.volume_row]), hread.scaled]
      simp [hj]

end Noise

/-! ## The residual -/

namespace Factor

variable {C ι α : Type} [FactorFamily C] [LinearOrder α] [ExactScalar α]
  {noise : Noise α} {m : Nat} {W : Nat → Nat → α}

theorem residual_prior_lift {β : Type} [Scalar β] {lift : α → β} (hlift : Lifting lift)
    {a : Handle ι} {mu : Value α} {values : List (Found β)} (heuclidean : a.type.isEuclidean = true)
    (hmu : mu.IsReal a.type.shapes) (hnoise : noise.Weighs m a.type.tangentDim W)
    (h : Typed [a.type] values) :
    ∃ r, ((⟨.prior, [a], [mu, noise.tree id]⟩ : Factor C ι (Block α)).mapFields
        (Block.mapReals lift)).residual values = .ok (.reals r) ∧ r.shape = [m] ∧
      ∀ read, Reading lift read → ∀ j, j < m → read (r.entry j) =
        combined read [W j] values - ∑ c ∈ Finset.range a.type.tangentDim,
          W j c * read (lift (mu.coordinate c)) := by
  obtain ⟨x, rest, hx, hrest, rfl⟩ := List.forall₂_cons_left_iff.1 h
  obtain rfl := List.forall₂_nil_left_iff.1 hrest
  obtain ⟨hlifted, hcells⟩ := hmu.mapReals lift
  obtain ⟨d, hd, hdshape, hdentry⟩ :=
    VariableType.localCoordinates_euclidean heuclidean hlifted hx
  obtain ⟨r, hr, hshape, hread⟩ := hnoise.whiten_lift hlift hdshape
  have hlength : ∀ {γ : Type} [Scalar γ] {v : Value γ}, v.IsReal a.type.shapes →
      v.cells.length = a.type.tangentDim := fun hv => by
    rw [hv.length_cells, VariableType.tangentDim_eq heuclidean]
    rfl
  refine ⟨r, ?_, hshape, fun read hπ j hj => ?_⟩
  · have hofTree : Noise.ofTree? (Tree.map (Block.mapReals lift) (noise.tree id)) =
        some (noise.lifted lift) := by cases noise <;> rfl
    show (do
      let type ← fitting (some a.type)
      let noise ← fitting (Noise.ofTree? (Tree.map (Block.mapReals lift) (noise.tree id)))
      noise.whiten (← (← type.localCoordinates (Tree.map (Block.mapReals lift) mu) x.value).array)) = _
    rw [hofTree, fitting_some, fitting_some, Checked.ok_bind, Checked.ok_bind, hd, Checked.ok_bind]
    exact hr
  · have hnil : combined read [] ([] : List (Found β)) = 0 := rfl
    rw [hread read hπ j hj, combined_cons, hlength hx, hnil, add_zero, ← Finset.sum_sub_distrib]
    refine Finset.sum_congr rfl fun c hc => ?_
    have hc := Finset.mem_range.1 hc
    rw [hdentry c hc, hπ.sub, Value.coordinate_of_map hcells (by rwa [hlength hmu]), mul_sub]

/-- A prior on a Euclidean variable has an affine residual: the weights of its noise. -/
theorem affineIn_prior {a : Handle ι} {mu : Value α} (heuclidean : a.type.isEuclidean = true)
    (hmu : mu.IsReal a.type.shapes) (hnoise : noise.Weighs m a.type.tangentDim W) :
    AffineIn (⟨.prior, [a], [mu, noise.tree id]⟩ : Factor C ι (Block α)) m [W]
      fun j => ∑ c ∈ Finset.range a.type.tangentDim, W j c * mu.coordinate c where
  euclidean t ht := by
    obtain rfl := List.mem_singleton.1 ht
    exact heuclidean
  length := rfl
  residual {values} h := by
    obtain ⟨r, hr, hshape, hread⟩ :=
      residual_prior_lift (C := C) lifting_id heuclidean hmu hnoise h
    rw [mapFields_id] at hr
    exact ⟨r, hr, hshape, fun j hj => hread id reading_id j hj⟩
  traced {values} h := by
    obtain ⟨r, hr, hshape, hread⟩ :=
      residual_prior_lift (C := C) lifting_const heuclidean hmu hnoise h
    refine ⟨r, hr, hshape, fun j hj => ⟨hread Traced.value reading_value j hj, fun i => ?_⟩⟩
    rw [hread (·.slope i) (reading_slope i) j hj]
    simp

end Factor

end LeastSquares
