import LeastSquares.Proofs.Factor.Deposit

/-!
# The rows that a stack mentions

A factor mentions the rows of a store that the handles of its differentiable part address. At the
coordinates of all other rows the linear factors have no coefficients, and the gradient of the stack
adds nothing.
-/

namespace LeastSquares

/-- A handle of one factor addresses this row of the values under a key. -/
def Handle.Marks {C α : Type} (L : Layout C) (a : Handle (Block α)) (key : Key C) (place : Nat) :
    Prop :=
  key = .type a.type ∧ ∃ i, a.index.Indexes i ∧ target (L.rows key) i = some place

namespace Factor

section Definitions

variable {C α : Type} [FactorFamily C] [Scalar α]

/-- A factor of the stack has the row in its differentiable part, with the values that it reads. -/
def Mentions (read : Reader α) (L : Layout C) (f : FactorStack C α) (key : Key C) (place : Nat) :
    Prop :=
  ∃ rows g values part ws, f.rows = .ok rows ∧ g ∈ rows ∧ g.values read = .ok values ∧
    g.component values = .ok (part, ws) ∧ ∃ a ∈ part.handles, a.Marks L key place

/-- The differentiable parts of the factors connect variables of the same types. -/
def Uniform (f : FactorStack C α) : Prop :=
  ∃ types, ∀ i values part ws, (f.row i).component values = .ok (part, ws) → part.types = types

omit [FactorFamily C] in
/-- Every term belongs to a handle. -/
theorem exists_handle_of_mem_terms {f : FactorStack C α} {T : Term α} (hT : T ∈ f.terms) :
    ∃ a ∈ f.handles, T.type = a.type ∧ T.index = a.index.toInts.entry := by
  unfold terms at hT
  split at hT
  · obtain ⟨⟨a, b⟩, hmem, rfl⟩ := List.mem_map.1 hT
    exact ⟨a, (List.of_mem_zip hmem).1, rfl, rfl⟩
  · obtain ⟨a, hmem, rfl⟩ := List.mem_map.1 hT
    exact ⟨a, hmem, rfl, rfl⟩
  · cases hT

end Definitions

variable {C α : Type} [DecidableEq C] [LinearOrder α] [ExactScalar α] {L : Layout C} {n m : Nat}
  {f : FactorStack C α}

/-- A linear factor has no coefficients in rows that its handles do not address. -/
theorem Linear.coefficient_eq_zero (h : Linear L n f m) {i : Nat} (j : Nat) {u : Key C × Nat}
    (hu : ∀ a ∈ (f.row i).handles, ¬ a.Marks L u.1 (u.2 / L.width u.1)) :
    f.coefficient L i j u = 0 := by
  refine List.sum_eq_zero (List.forall_mem_map.2 fun T hT => ?_)
  obtain ⟨a, ha, htype, hindex⟩ := exists_handle_of_mem_terms hT
  rw [Term.coefficient]
  split
  next hkey =>
    refine if_neg fun hplace => hu (rowHandle a i) (List.mem_map_of_mem ha)
      ⟨htype ▸ hkey, _, ?_, hplace⟩
    rw [hindex]
    exact indexes_row (h.addressed a ha) i
  next => rfl

/-! ## Gradients -/

/-- A vector adds nothing to the rows that its handle does not address. -/
theorem deposit_eq_zero {t : VariableType} {p : Handle (Block α) × Block α} (h : Contributes L t p)
    {u : L.cells} (hu : ¬ p.1.Marks L u.1.1 (u.1.2 / L.width u.1.1)) : deposit L p u = 0 := by
  obtain ⟨htype, ⟨-, index, hindex, hshape, -⟩, -⟩ := h
  rw [deposit]
  split
  next hkey =>
    refine if_neg fun hplace => hu ⟨hkey, _, ⟨index, hindex, hshape, rfl⟩, ?_⟩
    rwa [hindex] at hplace
  next => rfl

variable [FactorFamily C]

/-- The gradient of a stack leaves the rows that the stack does not mention. -/
theorem stackGradient_spec {read : Reader α} (hL : L.Tangent) {n : Nat}
    (hrows : f.rows = .ok ((List.range n).map f.row)) (huniform : f.Uniform)
    (hparted : ∀ i, i < n → (f.row i).Parted)
    (hpoints : ∀ i, i < n → ∀ a ∈ (f.row i).handles, a.type.isDifferentiable = true → a.Points L)
    {out w : Vectors C α} (hout : out.Fills L) (h : f.stackGradient read out = .ok w) :
    w.Fills L ∧ ∀ u ∈ L.cells, ¬ f.Mentions read L u.1 (u.2 / L.width u.1) →
      w.coordinate u = out.coordinate u := by
  obtain ⟨types, htypes⟩ := huniform
  rw [stackGradient_eq hrows] at h
  obtain ⟨contributions, hcontributions, h⟩ := Checked.bind_eq_ok h
  have hspec := Checked.forall₂_of_mapM hcontributions
  have hrow : ∀ row ∈ contributions, ∃ i, i < n ∧ ∃ values part ws vs,
      (f.row i).values read = .ok values ∧ (f.row i).component values = .ok (part, ws) ∧
      part.errorGradient ws = .ok vs ∧ row = part.handles.zip vs := by
    intro row hrow
    obtain ⟨i, hi, rfl⟩ := List.getElem_of_mem hrow
    have hi' : i < n := by
      have := hspec.length_eq
      simp at this
      omega
    have hget := hspec.get (hspec.length_eq ▸ hi) hi
    simp only [List.get_eq_getElem, List.getElem_map, List.getElem_range] at hget
    exact ⟨i, hi', contribution_eq_ok hget⟩
  have hcontributes : ∀ row ∈ contributions, List.Forall₂ (Contributes L) types row := by
    intro row hmem
    obtain ⟨i, hi, values, part, ws, vs, -, hpart, hvs, rfl⟩ := hrow row hmem
    obtain ⟨-, hmembers⟩ := hparted i hi values part ws hpart
    rw [← htypes i values part ws hpart]
    exact contributes_errorGradient hvs fun a ha =>
      hpoints i hi a (hmembers a ha).1 (hmembers a ha).2
  obtain ⟨w', hw', hfills, hcells⟩ := accumulate_of_contributes hL hcontributes hout
  obtain rfl := Except.ok.inj (h.symm.trans hw')
  refine ⟨hfills, fun u hu hun => ?_⟩
  have hfree : (contributions.map (deposits L)).sum ⟨u, hu⟩ = 0 := by
    rw [Pi.list_sum_apply, List.map_map]
    refine List.sum_eq_zero (List.forall_mem_map.2 fun row hmem => ?_)
    obtain ⟨i, hi, values, part, ws, vs, hvalues, hpart, -, hrow⟩ := hrow row hmem
    have hcontributes := hcontributes row hmem
    rw [Function.comp_apply, deposits, Pi.list_sum_apply, List.map_map]
    refine List.sum_eq_zero (List.forall_mem_map.2 fun p hp => ?_)
    obtain ⟨k, hk, rfl⟩ := List.getElem_of_mem hp
    refine deposit_eq_zero (hcontributes.get (hcontributes.length_eq ▸ hk) hk) fun hmarks => hun ?_
    refine ⟨_, f.row i, values, part, ws, hrows, List.mem_map_of_mem (List.mem_range.2 hi), hvalues,
      hpart, row[k].1, ?_, hmarks⟩
    have hmem : row[k] ∈ part.handles.zip vs := hrow ▸ List.getElem_mem hk
    exact (List.of_mem_zip hmem).1
  have hcoordinate : w.coordinate u = out.coordinate u + (contributions.map (deposits L)).sum ⟨u, hu⟩ :=
    congrFun hcells ⟨u, hu⟩
  rw [hcoordinate, hfree, add_zero]

end Factor

end LeastSquares
