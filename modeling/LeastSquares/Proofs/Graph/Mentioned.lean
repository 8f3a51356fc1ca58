import LeastSquares.Proofs.Factor.Mentioned
import LeastSquares.Proofs.Graph.Damped

/-!
# The rows that a graph mentions

At a row that no factor has in its differentiable part, the matrix of the linearised graph has zero
columns, and the gradient is zero.
-/

namespace LeastSquares

/-- A handle that marks a row of the template marks it in the store. -/
theorem LinearGraph.TangentTo.marks {C α : Type} [DecidableEq C] [LinearOrder α] [ExactScalar α]
    {linear : LinearGraph C α} {s : Store C α} (h : linear.TangentTo s) {key : Key C}
    (hkey : key ∈ s.tangents.keys) {k : Nat} {a : Handle (Block α)}
    (ha : a.Marks linear.unknowns key (k / linear.unknowns.width key)) :
    a.Marks s.layout key (k / key.tangentDim) := by
  obtain ⟨rfl, i, hindex, hplace⟩ := ha
  obtain ⟨hrows, hwidth⟩ := h.extents hkey
  rw [hrows, hwidth] at hplace
  exact ⟨rfl, i, hindex, hplace⟩

namespace Factor

variable {C α : Type} [FactorFamily C] [LinearOrder α] [ExactScalar α] {L : Layout C} {n : Nat}
  {f : FactorStack C α}

theorem uniform_of_ownPart (hown : OwnPart f.kind) (hrank : f.kind.rank ≠ .scalar) : f.Uniform := by
  refine ⟨f.types, fun i values part ws h => ?_⟩
  rw [component_eq (f := f.row i) hown hrank] at h
  obtain ⟨_, -, hpair⟩ := Checked.bind_eq_ok h
  cases hpair
  exact types_row f i

/-- The two ends of the motions that labels choose. -/
theorem uniform_switching (hkind : f.kind = .switchingBetween) {t : VariableType}
    (htypes : f.types = [t, .discrete, t]) : f.Uniform := by
  refine ⟨[t, t], fun i values part ws h => ?_⟩
  rw [← types_row f i] at htypes
  replace h : chosenBetween (f.row i) values = .ok (part, ws) := by
    rw [← h, component, show (f.row i).kind = .switchingBetween from hkind]
  unfold chosenBetween at h
  split at h
  next start label stop movements noise a l b hhandles _ =>
    obtain ⟨array, -, h⟩ := Checked.bind_eq_ok h
    obtain ⟨movement, -, h⟩ := Checked.bind_eq_ok h
    cases h
    rw [types, hhandles] at htypes
    simp only [List.map_cons, List.map_nil, List.cons.injEq, and_true] at htypes
    simp [types, htypes]
  next => cases h

/-- Only classes of the client can split off parts over variables of different types. -/
theorem Lawful.uniform (h : f.Lawful L n) (hresidual : f.kind.hasResidual = true)
    (hclient : ∀ c, f.kind = .client c → f.kind.rank = .vector → f.Uniform) : f.Uniform := by
  have hrank : f.kind.rank ≠ .scalar := by simpa [FactorClass.hasResidual] using hresidual
  unfold Lawful at h
  cases hk : f.kind with
  | switchingBetween =>
    rw [hk] at h
    obtain ⟨t, htypes, -⟩ := h
    exact uniform_switching hk htypes
  | client c =>
    rw [hk] at h
    simp only at h
    split at h
    next hr => exact absurd (by rw [hk]; exact hr) hrank
    next hr => exact hclient c hk (by rw [hk]; exact hr)
    next =>
      refine uniform_of_ownPart ⟨by simp [hk], fun c' hc' => ?_⟩ hrank
      rw [hk] at hc'
      cases hc'
      exact h.1
  | _ => exact uniform_of_ownPart ⟨by simp [hk], fun c' hc' => by rw [hk] at hc'; cases hc'⟩ hrank

end Factor

namespace FactorGraph

open Matrix

variable {C α : Type} [DecidableEq C] [FactorFamily C]

section Definitions

variable [Scalar α]

/-- Some factor with a residual has the row in its differentiable part. -/
def Mentions (graph : FactorGraph C α) (s : Store C α) (key : Key C) (place : Nat) : Prop :=
  ∃ k b f, graph.buffers.get? k = some b ∧ b.factors = .ok f ∧ f.kind.hasResidual = true ∧
    f.Mentions s.bulk s.layout key place

/-- A class of the client splits off parts over variables of the same types from all factors of a
group. -/
def Uniform (graph : FactorGraph C α) : Prop :=
  ∀ k b f c, graph.buffers.get? k = some b → b.factors = .ok f → f.kind = .client c →
    f.kind.rank = .vector → f.Uniform

end Definitions

variable [LinearOrder α] [ExactScalar α] {graph : FactorGraph C α} {linear : LinearGraph C α}
  {s : Store C α} {u : Key C × Nat}

/-- A group of the graph has residuals as its factors have, which then are proper. -/
theorem Proper.of_factors {L : Layout C} (hg : graph.Proper L) {key : Key C} {b : Buffer C α}
    (hb : graph.buffers.get? key = some b) {f : FactorStack C α} (hf : b.factors = .ok f) :
    b.hasResiduals = f.kind.hasResidual ∧ (f.kind.hasResidual = true → ∃ n, f.Proper L n) := by
  obtain ⟨f', hcontent, hstack, hproper⟩ := hg key b hb
  obtain rfl : f' = f := by
    rw [Buffer.factors, hcontent, hstack] at hf
    exact Except.ok.inj hf
  exact ⟨by rw [Buffer.hasResiduals, hcontent], hproper⟩

/-- The matrix has no coefficients at a row that is not mentioned. -/
theorem Proper.coefficient_eq_zero (hs : s.WellFormed) (hg : graph.Proper s.layout)
    (h : graph.linearize s = .ok linear) (hu : u ∈ s.tangents.cells)
    (hfree : ¬ graph.Mentions s u.1 (u.2 / u.1.tangentDim)) {e : Key C × Nat}
    (he : e ∈ linear.equations.cells) : linear.coefficient e u = 0 := by
  obtain ⟨htangent, image, hentries, himage⟩ := hg.linearize hs h
  obtain ⟨hkey, hcell⟩ := Layout.mem_cells.1 he
  obtain ⟨c, hc⟩ := Table.mem_keys_iff.1 (List.mem_toFinset.1 hkey)
  obtain ⟨hstack, hn, hlinear⟩ := (hg.wellFormed hs h).linear hc
  obtain ⟨old, hold, hsome⟩ := Table.mem_of_mem_images (hentries ▸ Table.get?_eq_some_iff.1 hc)
  have hbecomes := himage _ hold
  rw [show image e.1 old = some c from hsome] at hbecomes
  obtain ⟨hresiduals, f, F, n, m, hf, hF, hrows, -, hFlinear, happrox⟩ := hbecomes
  obtain rfl := Except.ok.inj (hF.symm.trans hstack)
  have hcount : linear.equations.rows e.1 = n :=
    Except.ok.inj (hlinear.count_eq.symm.trans hFlinear.count_eq)
  have hrow : e.2 / linear.equations.width e.1 < n := by
    rw [← hcount]
    exact Nat.div_lt_of_lt_mul (by rwa [Nat.mul_comm])
  obtain ⟨values, hvalues, -, part, ws, -, blocks, error, hpart, hhandles, -⟩ := happrox _ hrow
  refine hlinear.coefficient_eq_zero _ fun a ha hmarks => hfree ?_
  rw [hhandles] at ha
  have hget := Table.get?_eq_some_iff.2 hold
  exact ⟨e.1, old, f, hget, hf, (hg.of_factors hget hf).1 ▸ hresiduals, _, _, values, part, ws, hrows, List.mem_map_of_mem (List.mem_range.2 hrow), hvalues, hpart, a, ha,
    htangent.marks (Layout.mem_cells.1 hu).1 hmarks⟩

/-- The matrix applied from the left vanishes at a row that is not mentioned. -/
theorem Proper.transpose_mulVec_eq_zero (hs : s.WellFormed) (hg : graph.Proper s.layout)
    (h : graph.linearize s = .ok linear) {u : linear.unknowns.cells} (hu : u.1 ∈ s.tangents.cells)
    (hfree : ¬ graph.Mentions s u.1.1 (u.1.2 / u.1.1.tangentDim)) (y : linear.equations.cells → α) :
    (linear.matrixᵀ *ᵥ y) u = 0 :=
  Finset.sum_eq_zero fun e _ =>
    mul_eq_zero_of_left (hg.coefficient_eq_zero hs h hu hfree e.2) (y e)

/-- The gradient is found in the tangent vectors of the store, and vanishes at a row that is not
mentioned. -/
theorem Proper.gradient_spec (hs : s.WellFormed) (hg : graph.Proper s.layout) (huniform : graph.Uniform)
    {G : Vectors C α} (h : graph.gradient s = .ok G) : G.Within s.tangents ∧
      ∀ u ∈ s.tangents.cells, ¬ graph.Mentions s u.1 (u.2 / u.1.tangentDim) → G.coordinate u = 0 := by
  obtain ⟨z, hz, hfold⟩ := Checked.bind_eq_ok h
  -- the zero vectors of the store are the template of a linear graph without stacks
  have htangent : (⟨.empty, z⟩ : LinearGraph C α).TangentTo s := ⟨hs, hz⟩
  have hwell : (⟨.empty, z⟩ : LinearGraph C α).WellFormed := htangent.zeroTemplate.dampable.wellFormed
  obtain ⟨hfills, hfree⟩ := Checked.foldlM_preserves_of_mem
    (P := fun w : Vectors C α => w.Fills (LinearGraph.unknowns ⟨.empty, z⟩) ∧
      ∀ u ∈ s.tangents.cells, ¬ graph.Mentions s u.1 (u.2 / u.1.tangentDim) → w.coordinate u = 0)
    (fun e he out w hstep hout => by
      obtain ⟨k, b⟩ := e
      dsimp only at hstep
      split at hstep
      next hresiduals =>
        obtain ⟨f, hf, hstep⟩ := Checked.bind_eq_ok hstep
        have hget := Table.get?_eq_some_iff.2 he
        obtain ⟨hkind, hproper⟩ := hg.of_factors hget hf
        have hresidual : f.kind.hasResidual = true := hkind ▸ hresiduals
        obtain ⟨n, hproper⟩ := hproper hresidual
        obtain ⟨hfills, hsame⟩ := Factor.stackGradient_spec hwell.tangent hproper.rows
          (hproper.lawful.uniform hresidual fun c => huniform k b f c hget hf)
          (fun i hi => hproper.lawful.parted hresidual hproper.connected hi)
          (fun i hi a ha hdiff => by
            obtain ⟨c, hc, rfl⟩ := List.mem_map.1 ha
            exact htangent.points ((hproper.addressed c hc).points hi) hdiff) hout.1 hstep
        refine ⟨hfills, fun u hu hfree => ?_⟩
        rw [hsame u (htangent.mem_cells hu) ?_, hout.2 u hu hfree]
        rintro ⟨rows, g, values, part, ws, hrows, hg, hvalues, hpart, a, ha, hmarks⟩
        exact hfree ⟨k, b, f, hget, hf, hresidual, rows, g, values, part, ws, hrows, hg, hvalues, hpart,
          a, ha, htangent.marks (Layout.mem_cells.1 hu).1 hmarks⟩
      next =>
        cases hstep
        exact hout) hfold ⟨hwell.template_fills, fun u hu _ => hwell.template_zero (htangent.mem_cells hu)⟩
  exact ⟨htangent.within hfills.within, hfree⟩

end FactorGraph

end LeastSquares
