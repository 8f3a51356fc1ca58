import LeastSquares.Proofs.Buffer.Rows
import LeastSquares.Proofs.Value.Tree

/-!
# Stacks of linear factors

A stack of factors with affine residuals is a list of terms, one for each slot. A term names the
variable that each factor of the stack connects there and the block of its Jacobian. Row by row, the
linear part of a factor is the sum of the images of its terms, and its transpose gives one vector
for each term.
-/

namespace LeastSquares

/-- The index of a handle addresses a row of a layout, for each of `n` factors. Rows are also
counted from the end, by negative indices. -/
def Handle.Addresses {C α : Type} (h : Handle (Block α)) (L : Layout C) (n : Nat) : Prop :=
  Key.type h.type ∈ L.keys ∧ ∃ t : Tensor Int, h.index = .ints t ∧ t.shape = [n] ∧
    ∀ i, i < n → ∃ place, target (L.rows (.type h.type)) (t.entry i) = some place

theorem Handle.addresses_generate {C α : Type} {L : Layout C} {T : VariableType} {n : Nat}
    {index : Nat → Int} (hT : Key.type T ∈ L.keys)
    (h : ∀ i, i < n → ∃ place, target (L.rows (.type T)) (index i) = some place) :
    Handle.Addresses (⟨T, .ints (.generate [n] index)⟩ : Handle (Block α)) L n := by
  refine ⟨hT, _, rfl, rfl, fun i hi => ?_⟩
  rw [Tensor.entry_generate (by simpa using hi)]
  exact h i hi

namespace Factor

/-- One slot of a stack of linear factors. -/
structure Term (α : Type) where
  type : VariableType
  /-- The index of the variable that each factor connects. -/
  index : Nat → Int
  /-- The block of each factor: its rows belong to the residual, its columns to the variable. -/
  block : Nat → Nat → Nat → α

section Definitions

variable {C α : Type} [Scalar α]

/-- The term of a handle with an explicit block. -/
def Term.ofBlock (h : Handle (Block α)) (b : Block α) : Term α :=
  ⟨h.type, h.index.toInts.entry, fun i j c => ((b.row i).row j).toReals.entry c⟩

/-- The term of a handle with a multiple of the identity. -/
def Term.ofScalar (h : Handle (Block α)) (scalar : Block α) : Term α :=
  ⟨h.type, h.index.toInts.entry, fun i j c =>
    if j = c then (scalar.row i).toReals.entry 0 else Scalar.zero⟩

/-- The terms of a stack, slot by slot. -/
def terms (f : FactorStack C α) : List (Term α) :=
  match f.kind, f.fields with
  | .jacobian, [jacobians, _] => (f.handles.zip jacobians.leaves).map fun (h, b) => .ofBlock h b
  | .scalarJacobian, [.leaf scalar] => f.handles.map fun h => .ofScalar h scalar
  | _, _ => []

/-- The constant that the residual of a factor takes away from its linear part. -/
def offset (f : FactorStack C α) (i j : Nat) : α :=
  match f.kind, f.fields with
  | .jacobian, [_, .leaf error] => (error.row i).toReals.entry j
  | _, _ => Scalar.zero

/-- The number of coordinates of the residual of each factor. -/
def residualDim (f : FactorStack C α) : Nat :=
  match f.kind, f.fields, f.handles with
  | .jacobian, [_, .leaf error], _ => error.shape.getD 1 0
  | .scalarJacobian, _, h :: _ => h.type.tangentDim
  | _, _, _ => 0

/-- A stack of `n` factors with explicit or scalar Jacobians, whose handles address rows of a
layout and whose residuals have `m` coordinates each. -/
inductive Linear (L : Layout C) (n : Nat) : FactorStack C α → Nat → Prop where
  | jacobian {m : Nat} {label : Label} {handles : List (Handle (Block α))}
      {blocks : List (Block α)} {error : Block α} (connected : handles ≠ [])
      (shapes : List.Forall₂ (fun h b => b.shape = [n, m, h.type.tangentDim]) handles blocks)
      (error_shape : error.shape = [n, m]) (addressed : ∀ h ∈ handles, h.Addresses L n) :
      Linear L n ⟨.jacobian, handles, [.node label (blocks.map .leaf), .leaf error]⟩ m
  | scalarJacobian {h : Handle (Block α)} {scalar : Block α} (scalar_shape : scalar.shape = [n])
      (addressed : h.Addresses L n) :
      Linear L n ⟨.scalarJacobian, [h], [.leaf scalar]⟩ h.type.tangentDim

end Definitions

section Rows

variable {C α : Type} [Scalar α] {L : Layout C} {n m : Nat}
  {f : FactorStack C α}

omit [Scalar α] in
theorem Linear.addressed (h : Linear L n f m) : ∀ a ∈ f.handles, a.Addresses L n := by
  cases h with
  | jacobian _ _ _ addressed => exact addressed
  | scalarJacobian _ addressed => simpa using addressed

omit [Scalar α] in
theorem Linear.connected (h : Linear L n f m) : f.handles ≠ [] := by
  cases h with
  | jacobian connected => exact connected
  | scalarJacobian => simp

omit [Scalar α] in
/-- All leaves of a linear stack have a row for each factor. -/
theorem Linear.head?_shape (h : Linear L n f m) : ∀ b ∈ f.leaves, b.shape.head? = some n := by
  have hindex : ∀ a ∈ f.handles, a.index.shape.head? = some n := by
    intro a ha
    obtain ⟨-, t, ht, hshape, -⟩ := h.addressed a ha
    rw [ht, Block.shape, hshape]
    rfl
  intro b hb
  rw [leaves, List.mem_append] at hb
  rcases hb with hb | hb
  · obtain ⟨a, ha, rfl⟩ := List.mem_map.1 hb
    exact hindex a ha
  · cases h with
    | @jacobian m label handles blocks error _ shapes error_shape =>
      simp only [List.flatMap_cons, List.flatMap_nil, List.append_nil, List.mem_append] at hb
      rcases hb with hb | hb
      · rw [Tree.leaves_node_map_leaf] at hb
        obtain ⟨k, hk, rfl⟩ := List.getElem_of_mem hb
        have hk' : k < handles.length := shapes.length_eq ▸ hk
        have hshape := shapes.get hk' hk
        simp only [List.get_eq_getElem] at hshape
        rw [hshape]
        rfl
      · obtain rfl : b = error := by simpa [Tree.leaves] using hb
        rw [error_shape]
        rfl
    | @scalarJacobian _ scalar scalar_shape =>
      obtain rfl : b = scalar := by simpa [Tree.leaves] using hb
      rw [scalar_shape]
      rfl

omit [Scalar α] in
theorem Linear.count_eq (h : Linear L n f m) : f.count = .ok n := by
  obtain ⟨a, rest, hhandles⟩ := List.exists_cons_of_ne_nil h.connected
  have hfirst : f.leaves.head? = some a.index := by simp [leaves, hhandles]
  have hhead := h.head?_shape a.index (List.mem_of_head? hfirst)
  simp [count, hfirst, hhead]

theorem Linear.rows_eq (h : Linear L n f m) : f.rows = .ok ((List.range n).map f.row) := by
  have hall : (f.leaves.all fun b => b.shape.head? = some n) = true := by
    simpa using h.head?_shape
  have hrows : f.rowCount = .ok n := by
    rw [rowCount, h.count_eq, Checked.ok_bind, if_pos hall]
    rfl
  rw [rows, hrows]
  rfl

omit [Scalar α] in
theorem Linear.residualDim_eq (h : Linear L n f m) : f.residualDim = m := by
  cases h with
  | jacobian _ _ error_shape _ =>
    simp only [residualDim, error_shape]
    rfl
  | scalarJacobian => rfl

end Rows

/-! ## Coefficients -/

section Coefficients

variable {C α : Type} [DecidableEq C] [LinearOrder α] [ExactScalar α] {L : Layout C}

/-- The coefficient of a cell in coordinate `j` of the image of factor `i`. -/
def Term.coefficient (L : Layout C) (T : Term α) (i j : Nat) (u : Key C × Nat) : α :=
  if u.1 = .type T.type then
    if target (L.rows u.1) (T.index i) = some (u.2 / L.width u.1) then
      T.block i j (u.2 % L.width u.1)
    else 0
  else 0

/-- Coordinate `j` of the image of factor `i`. -/
def Term.image (L : Layout C) (T : Term α) (x : Vectors C α) (i j : Nat) : α :=
  ∑ u ∈ L.cells, T.coefficient L i j u * x.coordinate u

/-- The coefficient of a cell in coordinate `j` of the image of factor `i`, over all terms. -/
def coefficient (L : Layout C) (f : FactorStack C α) (i j : Nat) (u : Key C × Nat) : α :=
  (f.terms.map fun T => T.coefficient L i j u).sum

/-- Coordinate `j` of the linear part of factor `i`. -/
def image (L : Layout C) (f : FactorStack C α) (x : Vectors C α) (i j : Nat) : α :=
  ∑ u ∈ L.cells, f.coefficient L i j u * x.coordinate u

theorem image_eq_sum (f : FactorStack C α) (x : Vectors C α) (i j : Nat) :
    f.image L x i j = (f.terms.map fun T => T.image L x i j).sum := by
  have go : ∀ ts : List (Term α),
      ∑ u ∈ L.cells, (ts.map fun T => T.coefficient L i j u).sum * x.coordinate u =
        (ts.map fun T => T.image L x i j).sum := by
    intro ts
    induction ts with
    | nil => simp
    | cons T ts ih =>
      simp only [List.map_cons, List.sum_cons, add_mul, Finset.sum_add_distrib, ih]
      rfl
  exact go f.terms

theorem sum_row_cells {rows place : Nat} (hplace : place < rows) (width : Nat) (g : Nat → α) :
    (∑ k ∈ Finset.range (rows * width), if place = k / width then g k else 0) =
      ∑ c ∈ Finset.range width, g (place * width + c) := by
  rw [← Finset.sum_filter]
  symm
  refine Finset.sum_bij (fun c _ => place * width + c) (fun c hc => ?_) (fun c _ d _ h => ?_)
    (fun k hk => ?_) fun _ _ => rfl
  · have hc := Finset.mem_range.1 hc
    rw [Finset.mem_filter, Finset.mem_range]
    exact ⟨Shape.cell_lt hplace hc, (Shape.cell_div hc place).symm⟩
  · omega
  · rw [Finset.mem_filter, Finset.mem_range] at hk
    have hwidth : 0 < width := by
      rcases Nat.eq_zero_or_pos width with h | h
      · simp [h] at hk
      · exact h
    refine ⟨k % width, Finset.mem_range.2 (Nat.mod_lt k hwidth), ?_⟩
    rw [hk.2, Nat.mul_comm]
    exact Nat.div_add_mod k width

/-- The coefficients of a term stand in the row that its handle addresses. -/
theorem Term.sum_coefficient {T : Term α} {i place : Nat} (hT : Key.type T.type ∈ L.keys)
    (hplace : target (L.rows (.type T.type)) (T.index i) = some place) (j : Nat)
    (g : Key C × Nat → α) :
    ∑ u ∈ L.cells, T.coefficient L i j u * g u =
      ∑ c ∈ Finset.range (L.width (.type T.type)),
        T.block i j c * g (.type T.type, place * L.width (.type T.type) + c) := by
  have hother : ∀ key ∈ L.keys, key ≠ .type T.type →
      ∑ k ∈ Finset.range (L.size key), T.coefficient L i j (key, k) * g (key, k) = 0 := by
    intro key _ hkey
    refine Finset.sum_eq_zero fun k _ => ?_
    rw [coefficient, if_neg hkey, zero_mul]
  let width := L.width (.type T.type)
  calc ∑ u ∈ L.cells, T.coefficient L i j u * g u
      = ∑ k ∈ Finset.range (L.rows (.type T.type) * width), if place = k / width then
          T.block i j (k % width) * g (.type T.type, k) else 0 := by
        rw [Layout.sum_cells, Finset.sum_eq_single_of_mem _ hT hother]
        refine Finset.sum_congr rfl fun k _ => ?_
        unfold coefficient
        simp only [if_true, hplace, Option.some.injEq, ite_mul, zero_mul]
        rfl
    _ = ∑ c ∈ Finset.range width,
          T.block i j ((place * width + c) % width) * g (.type T.type, place * width + c) :=
        sum_row_cells (target_lt hplace) width _
    _ = ∑ c ∈ Finset.range width, T.block i j c * g (.type T.type, place * width + c) := by
        refine Finset.sum_congr rfl fun c hc => ?_
        rw [Shape.cell_mod (Finset.mem_range.1 hc)]

end Coefficients

end Factor

end LeastSquares
