import LeastSquares.Proofs.Factor.Batched
import LeastSquares.Proofs.Factor.Scatter

/-!
# Linear stacks in another order

Two stacks with the same linear factors map a vector to the same rows, in the order of each, and the
transposes map such rows back to the same.
-/

namespace LeastSquares

open Checked (Matches)

theorem Block.reals_of_vecMul? {α : Type} [Scalar α] {y a u : Block α} (h : y.vecMul? a = some u) :
    ∃ v : Tensor α, u = .reals v ∧ v.shape = [a.shape.getD 1 0] := by
  obtain ⟨v, hv, rfl⟩ := Option.map_eq_some_iff.1 h
  refine ⟨v, rfl, ?_⟩
  rw [← shape_toReals a]
  unfold Tensor.vecMul? at hv
  split at hv
  next k m n _ ha =>
    obtain ⟨extent, -, hv⟩ := Option.bind_eq_some_iff.1 hv
    rw [← Option.some.inj hv, ha]
    rfl
  next => cases hv

namespace Factor

section Transposes

variable {C α : Type} [FactorFamily C] [Scalar α] {g : FactorStack C α}

/-- The number of columns of a matrix. -/
def columns : Tree Shape → Nat
  | .leaf s => s.getD 1 0
  | _ => 0

/-- The sizes of the vectors that the transpose of a linear factor gives, told by the shapes of its arrays. -/
def transposeDims (shapes : Factor C Shape Shape) : List Nat :=
  match shapes.fields with
  | [.node _ jacobians, _] => jacobians.map columns
  | _ => []

theorem forall₂_adjoint (hkind : g.kind = .jacobian) {y : Block α} {vs : List (Block α)}
    (h : g.adjoint y = .ok vs) : List.Forall₂ (fun d b => ∃ v : Tensor α, b = .reals v ∧ v.shape = [d])
      (transposeDims (g.map Block.shape Block.shape)) vs := by
  unfold adjoint at h
  rw [hkind] at h
  split at h
  next label jacobians error _ hfields =>
    have hdims : transposeDims (g.map Block.shape Block.shape) =
        jacobians.map fun j => columns (j.map Block.shape) := by
      simp [transposeDims, map, hfields, Tree.map, Tree.map_all_eq]
    rw [hdims, List.forall₂_map_left_iff]
    refine (Checked.forall₂_of_mapM h).imp fun j u hu => ?_
    obtain ⟨b, hb, hu⟩ := Checked.bind_eq_ok hu
    obtain rfl := eq_leaf_of_array hb
    exact Block.reals_of_vecMul? (fitting_eq_ok hu)
  next hscalar _ => cases hscalar
  next c hclient => cases hclient
  next => cases h

/-- What the transpose of a linear factor contributes, given a vector of its residual space. -/
def adjointContribution (p : FactorStack C α × Block α) : Checked (List (Handle (Block α) × Block α)) := do
  return p.1.handles.zip (← p.1.adjoint p.2)

end Transposes

/-! ## Rows -/

section Rows

variable {C α : Type} [Scalar α] {G G' : FactorStack C α} {Y Y' : Block α}

/-- Linear factors of single variables in two stacks, in the order of each. -/
def Shuffled (G G' : FactorStack C α) : Prop :=
  ∃ gs gs', G.rows = .ok gs ∧ G'.rows = .ok gs' ∧ gs.Perm gs' ∧ ∀ g ∈ gs, g.kind = .jacobian ∧ g.Single

/-- Each factor of a stack, with the row of an array beside it. -/
def besides (gs : List (FactorStack C α)) (Y : Block α) : List (FactorStack C α × Block α) :=
  gs.zipIdx.map fun p => (p.1, Y.row p.2)

/-- Two arrays have the same rows beside the factors of two stacks. -/
def Paired (G G' : FactorStack C α) (Y Y' : Block α) : Prop :=
  ∃ gs gs', G.rows = .ok gs ∧ G'.rows = .ok gs' ∧ Y.shape.head? = some gs.length ∧
    Y'.shape.head? = some gs'.length ∧ (besides gs Y).Perm (besides gs' Y')

/-- Stacked in another order, the results of some factors are the same rows beside them. -/
theorem matches_paired (hG : Shuffled G G') (φ : FactorStack C α → Checked (Block α)) :
    Matches (Paired G G') (G.rows >>= fun gs => gs.mapM φ >>= fun ys => fitting (Block.stack? ys))
      (G'.rows >>= fun gs => gs.mapM φ >>= fun ys => fitting (Block.stack? ys)) := by
  obtain ⟨gs, gs', hrows, hrows', hperm, -⟩ := hG
  rw [hrows, hrows']
  refine (Checked.matches_mapM_perm hperm).bind fun ys ys' hys hys' hzip => ?_
  have hlength := (Checked.forall₂_of_mapM hys).length_eq
  have hlength' := (Checked.forall₂_of_mapM hys').length_eq
  have hresults : ys.Perm ys' := by
    have hsecond := hzip.map Prod.snd
    rwa [List.map_snd_zip hlength.ge, List.map_snd_zip hlength'.ge] at hsecond
  -- beside the factors, the array has their results, all in the widest of their kinds
  have hbesides : ∀ {gs : List (FactorStack C α)} {ys : List (Block α)} {Y : Block α}, gs.length = ys.length →
      Block.stack? ys = some Y → Y.shape.head? = some gs.length ∧
        besides gs Y = (gs.zip ys).map fun p => (p.1, p.2.cast (Block.widest ys)) := by
    intro gs ys Y hlength hY
    obtain ⟨s, hne, hshape⟩ := Block.shape_eq_of_stack? hY
    obtain ⟨u, hu, -, hushape, hrows⟩ := Block.stack?_widest hne hshape
    obtain rfl := Option.some.inj (hu.symm.trans hY)
    refine ⟨by rw [hushape, hlength]; rfl, List.ext_getElem (by simp [besides, hlength]) fun i hi hi' => ?_⟩
    have hi : i < ys.length := by simpa [besides, hlength] using hi
    simp [besides, hrows i hi]
  refine Checked.matches_of_iff ⟨fun ⟨Y, hY⟩ => ?_, fun ⟨Y, hY⟩ => ?_⟩ fun Y Y' hY hY' => ?_
  · obtain ⟨Y', hY'⟩ := Block.exists_stack?_perm hresults (fitting_eq_ok hY)
    exact ⟨Y', congrArg fitting hY'⟩
  · obtain ⟨Y', hY'⟩ := Block.exists_stack?_perm hresults.symm (fitting_eq_ok hY)
    exact ⟨Y', congrArg fitting hY'⟩
  · obtain ⟨hcount, hpairs⟩ := hbesides hlength (fitting_eq_ok hY)
    obtain ⟨hcount', hpairs'⟩ := hbesides hlength' (fitting_eq_ok hY')
    refine ⟨gs, gs', hrows, hrows', hcount, hcount', ?_⟩
    rw [hpairs, hpairs', Block.widest_perm hresults]
    exact hzip.map _

theorem Shuffled.matches_stackForward [FactorFamily C] (hG : Shuffled G G') (read : Reader α) :
    Matches (Paired G G') (G.stackForward read) (G'.stackForward read) := by
  have hmatches := matches_paired hG fun g => g.values read >>= g.forward
  simpa only [stackForward, overRows, bind_assoc] using hmatches

theorem Shuffled.matches_stackResiduals [FactorFamily C] (hG : Shuffled G G') (read : Reader α) :
    Matches (Paired G G') (G.stackResiduals read) (G'.stackResiduals read) := by
  have hmatches := matches_paired hG fun g => g.values read >>= g.residual
  simpa only [stackResiduals, overRows, bind_assoc] using hmatches

theorem Paired.scaled (h : Paired G G' Y Y') (x : α) : Paired G G' (Y.scaled x) (Y'.scaled x) := by
  have hscaled : ∀ {gs : List (FactorStack C α)} {Y : Block α}, Y.shape.head? = some gs.length →
      besides gs (Y.scaled x) = (besides gs Y).map fun p => (p.1, p.2.scaled x) := by
    intro gs Y hcount
    obtain ⟨s, hs⟩ := List.head?_eq_some_iff.1 hcount
    rw [besides, besides, List.map_map]
    refine List.map_congr_left fun p hp => ?_
    rw [Function.comp_apply, Block.row_scaled hs x (List.mem_zipIdx' hp).1]
  obtain ⟨gs, gs', hrows, hrows', hcount, hcount', hperm⟩ := h
  have hshape : ∀ Y : Block α, (Y.scaled x).shape = Y.shape := fun Y => Block.shape_toReals Y
  refine ⟨gs, gs', hrows, hrows', (hshape Y).symm ▸ hcount, (hshape Y').symm ▸ hcount', ?_⟩
  rw [hscaled hcount, hscaled hcount']
  exact hperm.map _

end Rows

/-! ## Transposes -/

section Steps

variable {C α : Type} [DecidableEq C] [FactorFamily C] [LinearOrder α] [ExactScalar α] {L : Layout C}
  {G G' : FactorStack C α} {Y Y' : Block α}

theorem stackAdjoint_eq {gs : List (FactorStack C α)} (hrows : G.rows = .ok gs)
    (hcount : Y.shape.head? = some gs.length) (out : Vectors C α) : G.stackAdjoint Y out =
      (besides gs Y).mapM adjointContribution >>= fun rows => accumulate rows out := by
  unfold stackAdjoint
  rw [hrows, Checked.ok_bind, if_neg (by simp [hcount]), besides, List.mapM_map]
  rfl

/-- The transposes map the same rows back to the same. -/
theorem Paired.agree_stackAdjoint (h : Paired G G' Y Y') (hG : Shuffled G G') :
    Vectors.Agree L (G.stackAdjoint Y) (G'.stackAdjoint Y') := by
  obtain ⟨gs, gs', hrows, hrows', hcount, hcount', hperm⟩ := h
  obtain ⟨_, _, hrows₂, -, -, hlinear⟩ := hG
  obtain rfl := Except.ok.inj (hrows.symm.trans hrows₂)
  have hrow : ∀ g ∈ gs, ∃ i, g = G.row i := by
    intro g hg
    obtain ⟨n, -, hn⟩ := Checked.bind_eq_ok hrows
    rw [← Except.ok.inj hn] at hg
    obtain ⟨i, -, rfl⟩ := List.mem_map.1 hg
    exact ⟨i, rfl⟩
  have hdelivers : ∀ p ∈ besides gs Y, ∀ row, adjointContribution p = .ok row →
      List.Forall₂ Delivers (G.types.zip (transposeDims ((G.row 0).map Block.shape Block.shape))) row := by
    intro p hp row hp'
    obtain ⟨⟨g, j⟩, hg, rfl⟩ := List.mem_map.1 hp
    have hmem := List.fst_mem_of_mem_zipIdx hg
    obtain ⟨hkind, hsingle⟩ := hlinear g hmem
    obtain ⟨i, rfl⟩ := hrow g hmem
    obtain ⟨vs, hvs, hzip⟩ := Checked.bind_eq_ok hp'
    rw [← Except.ok.inj hzip, shapes_row G 0 i]
    have htypes : (G.row i).handles.map (·.type) = G.types := by simp [types, Factor.row, map]
    rw [← htypes]
    exact delivers_zip hsingle (forall₂_adjoint hkind hvs)
  exact (agree_of_rows hperm hdelivers).congr (stackAdjoint_eq hrows hcount) (stackAdjoint_eq hrows' hcount')

end Steps

end Factor

end LeastSquares
