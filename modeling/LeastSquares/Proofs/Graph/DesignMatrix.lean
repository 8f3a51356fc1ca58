import LeastSquares.Proofs.Buffer.Cells
import LeastSquares.Proofs.Graph.LinearStack
import LeastSquares.Graph.Linear

/-!
# The matrix of a linear graph

A linear graph whose stacks are linear and whose handles address rows of a zero template has a
matrix: one column for each coordinate of the template, one row for each coordinate of a residual.
The forward map multiplies by it, the residuals subtract a constant from that, and the adjoint
multiplies by the transpose. Missing and empty operands count as zero.
-/

namespace LeastSquares

/-- The extents of the array that a buffer holds. -/
def Buffer.extents {C α : Type} (b : Buffer C α) : Nat × Nat :=
  match b.stack with
  | some (.values (.leaf rows)) => (rows.shape.headD 0, rows.shape.getD 1 0)
  | _ => (0, 0)

/-- The layout of a collection: the arrays that are not empty. -/
def Vectors.layout {C α : Type} [DecidableEq C] (v : Vectors C α) : Layout C where
  keys := v.buffers.keys.toFinset.filter fun key => (v.buffer key).isEmpty = false
  rows key := (v.buffer key).extents.1
  width key := (v.buffer key).extents.2

namespace LinearGraph

section Definitions

variable {C α : Type} [DecidableEq C] [Scalar α]

/-- The stack under a key. -/
def stack (g : LinearGraph C α) (key : Key C) : FactorStack C α :=
  match (g.buffers.buffer key).factors with
  | .ok f => f
  | .error _ => ⟨.jacobian, [], []⟩

/-- The coordinates of the template. -/
def unknowns (g : LinearGraph C α) : Layout C := g.template.layout

/-- The coordinates of the residuals. -/
def equations (g : LinearGraph C α) : Layout C where
  keys := g.buffers.keys.toFinset
  rows key := (g.stack key).count.toOption.getD 0
  width key := (g.stack key).residualDim

end Definitions

variable {C α : Type} [DecidableEq C] [LinearOrder α] [ExactScalar α]

/-- The template holds zero tangent vectors, and the stacks are linear in its rows. -/
structure WellFormed (g : LinearGraph C α) : Prop where
  template : ∀ key b, g.template.buffers.get? key = some b → b.isEmpty = true ∨
    ∃ T n t, key = .type T ∧ b.Holds key t ∧ t.shape = [n, T.tangentDim] ∧
      ∀ k, k < t.shape.volume → t.entry k = 0
  groups : ∀ key b, g.buffers.get? key = some b →
    ∃ f n m, b.factors = .ok f ∧ 0 < n ∧ f.Linear g.unknowns n m

/-- The coefficient of an unknown in an equation. -/
def coefficient (g : LinearGraph C α) (e u : Key C × Nat) : α :=
  (g.stack e.1).coefficient g.unknowns (e.2 / g.equations.width e.1) (e.2 % g.equations.width e.1) u

/-- The constant of an equation. -/
def constant (g : LinearGraph C α) (e : Key C × Nat) : α :=
  (g.stack e.1).offset (e.2 / g.equations.width e.1) (e.2 % g.equations.width e.1)

/-! ## Layouts -/

variable {g : LinearGraph C α}

theorem WellFormed.template_holds (hg : g.WellFormed) {key : Key C} (hkey : key ∈ g.unknowns.keys) :
    ∃ T t, key = .type T ∧ (g.template.buffer key).Holds key t ∧
      t.shape = [g.unknowns.rows key, g.unknowns.width key] ∧
      g.unknowns.width key = T.tangentDim ∧ ∀ k, k < t.shape.volume → t.entry k = 0 := by
  obtain ⟨hmem, hempty⟩ := Finset.mem_filter.1 hkey
  obtain ⟨b, hb⟩ := Table.mem_keys_iff.1 (List.mem_toFinset.1 hmem)
  have hbuffer : g.template.buffer key = b := Buffers.buffer_of_get? hb
  rcases hg.template key b hb with he | ⟨T, n, t, hT, ht, hshape, hzero⟩
  · rw [hbuffer, he] at hempty
    cases hempty
  · have hextents : (g.template.buffer key).extents = (n, T.tangentDim) := by
      rw [hbuffer, Buffer.extents, ht.2]
      show (t.shape.headD 0, t.shape.getD 1 0) = _
      rw [hshape]
      rfl
    refine ⟨T, t, hT, hbuffer ▸ ht, ?_, congrArg Prod.snd hextents, hzero⟩
    show _ = [(g.template.buffer key).extents.1, (g.template.buffer key).extents.2]
    rw [hextents, hshape]

theorem WellFormed.template_fills (hg : g.WellFormed) : g.template.Fills g.unknowns where
  holds key hkey := by
    obtain ⟨T, t, -, ht, hshape, -⟩ := hg.template_holds hkey
    exact ⟨t, ht, hshape⟩
  outside key hkey := by
    by_cases hmem : key ∈ g.template.buffers.keys
    · by_contra he
      exact hkey (Finset.mem_filter.2 ⟨List.mem_toFinset.2 hmem, by simpa using he⟩)
    · show (g.template.buffers.buffer key).isEmpty = true
      rw [Buffers.buffer_of_not_mem hmem]
      rfl

theorem WellFormed.template_zero (hg : g.WellFormed) {u : Key C × Nat}
    (hu : u ∈ g.unknowns.cells) : g.template.coordinate u = 0 := by
  obtain ⟨hkey, hk⟩ := Layout.mem_cells.1 hu
  obtain ⟨T, t, -, ht, hshape, -, hzero⟩ := hg.template_holds hkey
  have hk : u.2 < t.shape.volume := by
    rw [hshape, Shape.volume_matrix]
    exact hk
  exact (ht.coordinate hk).trans (hzero u.2 hk)

theorem WellFormed.tangent (hg : g.WellFormed) : g.unknowns.Tangent := by
  intro T hT
  obtain ⟨T', t, h, -, -, hwidth, -⟩ := hg.template_holds hT
  obtain rfl := Key.type.inj h
  exact hwidth

omit [LinearOrder α] [ExactScalar α] in
/-- The layout of the equations has the extents of a linear stack. -/
theorem equations_eq [Scalar α] {key : Key C} {b : Buffer C α} {f : FactorStack C α} {L : Layout C} {n m : Nat}
    (hb : g.buffers.get? key = some b) (hf : b.factors = .ok f) (h : f.Linear L n m) :
    g.stack key = f ∧ g.equations.rows key = n ∧ g.equations.width key = m := by
  have hstack : g.stack key = f := by
    unfold stack
    rw [Buffers.buffer_of_get? hb, hf]
  refine ⟨hstack, ?_, ?_⟩
  · show (g.stack key).count.toOption.getD 0 = n
    rw [hstack, h.count_eq]
    rfl
  · show (g.stack key).residualDim = m
    rw [hstack, h.residualDim_eq]

/-- The stack under a key is linear, with the extents of the layout of the equations. -/
theorem WellFormed.linear (hg : g.WellFormed) {key : Key C} {b : Buffer C α}
    (hb : g.buffers.get? key = some b) :
    b.factors = .ok (g.stack key) ∧ 0 < g.equations.rows key ∧
      (g.stack key).Linear g.unknowns (g.equations.rows key) (g.equations.width key) := by
  obtain ⟨f, n, m, hf, hn, hlinear⟩ := hg.groups key b hb
  obtain ⟨hstack, hrows, hwidth⟩ := equations_eq hb hf hlinear
  rw [hstack, hrows, hwidth]
  exact ⟨hf, hn, hlinear⟩

/-! ## The operators -/

theorem sum_range_mul (n m : Nat) (F : Nat → Nat → α) :
    ∑ k ∈ Finset.range (n * m), F (k / m) (k % m) =
      ∑ i ∈ Finset.range n, ∑ j ∈ Finset.range m, F i j := by
  induction n with
  | zero => simp
  | succ n ih =>
    rw [Nat.succ_mul, Finset.sum_range_add, ih, Finset.sum_range_succ]
    refine congrArg _ (Finset.sum_congr rfl fun j hj => ?_)
    have hj := Finset.mem_range.1 hj
    rw [Shape.cell_div hj, Shape.cell_mod hj]

/-- A function of each stack that makes arrays with given entries, over all groups. -/
theorem WellFormed.overGroups (hg : g.WellFormed) {rule : FactorStack C α → Checked (Block α)}
    {F : Key C → Nat → Nat → α}
    (hrule : ∀ key b, g.buffers.get? key = some b → ∃ t, rule (g.stack key) = .ok (.reals t) ∧
      t.IsMatrix (g.equations.rows key) (g.equations.width key) (F key)) :
    ∃ w, g.overGroups rule = .ok w ∧ w.Fills g.equations ∧ ∀ e ∈ g.equations.cells,
      w.coordinate e = F e.1 (e.2 / g.equations.width e.1) (e.2 % g.equations.width e.1) := by
  have hone : ∀ key b, g.buffers.get? key = some b → ∃ t,
      (do return Buffer.ofVectors key (← rule (← b.factors))) =
        .ok (Buffer.ofVectors key (.reals t)) ∧
      t.IsMatrix (g.equations.rows key) (g.equations.width key) (F key) := by
    intro key b hb
    obtain ⟨t, ht, hmatrix⟩ := hrule key b hb
    refine ⟨t, ?_, hmatrix⟩
    rw [(hg.linear hb).1, Checked.ok_bind, ht]
    rfl
  obtain ⟨v, hv, hkeys, himages⟩ := Table.mapM_ok
    (f := fun key b => do return Buffer.ofVectors key (← rule (← Buffer.factors b)))
    fun key b hb => by
      obtain ⟨t, ht, -⟩ := hone key b hb
      exact ⟨_, ht⟩
  have hholds : ∀ key ∈ g.equations.keys, ∃ t, (Buffers.buffer v key).Holds key t ∧
      t.IsMatrix (g.equations.rows key) (g.equations.width key) (F key) := by
    intro key hkey
    obtain ⟨b, hb⟩ := Table.mem_keys_iff.1 (List.mem_toFinset.1 hkey)
    obtain ⟨c, hc, himage⟩ := himages key b hb
    obtain ⟨t, ht, hmatrix⟩ := hone key b hb
    obtain rfl := Except.ok.inj (ht.symm.trans himage)
    rw [Buffers.buffer_of_get? hc]
    exact ⟨t, ⟨rfl, rfl⟩, hmatrix⟩
  refine ⟨⟨v⟩, ?_, ⟨fun key hkey => ?_, fun key hkey => ?_⟩, fun e he => ?_⟩
  · unfold LinearGraph.overGroups
    rw [hv]
    rfl
  · obtain ⟨t, ht, hmatrix⟩ := hholds key hkey
    exact ⟨t, ht, hmatrix.1⟩
  · show (Buffers.buffer v key).isEmpty = true
    rw [Buffers.buffer_of_not_mem (by rw [hkeys]; exact fun h => hkey (List.mem_toFinset.2 h))]
    rfl
  · obtain ⟨hkey, hk⟩ := Layout.mem_cells.1 he
    obtain ⟨t, ht, hmatrix⟩ := hholds e.1 hkey
    have hcell : e.2 < t.shape.volume := by
      rw [hmatrix.1, Shape.volume_matrix]
      exact hk
    exact (ht.coordinate hcell).trans (hmatrix.entry_eq hk)

variable [FactorFamily C]

/-- The forward map multiplies by the matrix. -/
theorem WellFormed.forward (hg : g.WellFormed) {x : Vectors C α} (hx : x.Fits g.unknowns) :
    ∃ w, g.forward x.bulk = .ok w ∧ w.Fills g.equations ∧ ∀ e ∈ g.equations.cells,
      w.coordinate e = ∑ u ∈ g.unknowns.cells, g.coefficient e u * x.coordinate u :=
  hg.overGroups (F := fun key i j => (g.stack key).image g.unknowns x i j) fun key b hb => by
    obtain ⟨-, hn, hlinear⟩ := hg.linear hb
    exact hlinear.stackForward hn hg.tangent hx

/-- The residuals subtract a constant from the image. -/
theorem WellFormed.residuals (hg : g.WellFormed) {x : Vectors C α} (hx : x.Fits g.unknowns) :
    ∃ w, g.residuals x.bulk = .ok w ∧ w.Fills g.equations ∧ ∀ e ∈ g.equations.cells,
      w.coordinate e =
        (∑ u ∈ g.unknowns.cells, g.coefficient e u * x.coordinate u) - g.constant e :=
  hg.overGroups (F := fun key i j =>
      (g.stack key).image g.unknowns x i j - (g.stack key).offset i j) fun key b hb => by
    obtain ⟨-, hn, hlinear⟩ := hg.linear hb
    exact hlinear.stackResiduals hn hg.tangent hx

/-- The transpose of one group, added to what is there. -/
def adjointStep (y : Buffers C α) (out : Vectors C α) (e : Key C × Buffer C α) :
    Checked (Vectors C α) := do
  let vectors := y.buffer e.1
  if vectors.isEmpty then return out
  (← e.2.factors).stackAdjoint (← vectors.rows) out

/-- The adjoint, added to what is there. -/
def adjointInto (g : LinearGraph C α) (y : Buffers C α) (out : Vectors C α) : Checked (Vectors C α) :=
  g.buffers.entries.foldlM (adjointStep y) out

/-- What the equations under a key send to an unknown. -/
def sentFrom (g : LinearGraph C α) (y : Vectors C α) (u : Key C × Nat) (key : Key C) : α :=
  ∑ k ∈ Finset.range (g.equations.size key), y.coordinate (key, k) * g.coefficient (key, k) u

omit [FactorFamily C] in
theorem sum_sentFrom (g : LinearGraph C α) (y : Vectors C α) (u : Key C × Nat) :
    (g.buffers.entries.map fun e => g.sentFrom y u e.1).sum =
      ∑ e ∈ g.equations.cells, y.coordinate e * g.coefficient e u := by
  rw [Layout.sum_cells_of_keys (L := g.equations) rfl g.buffers.distinct, Table.keys, List.map_map]
  rfl

theorem WellFormed.adjoint_group (hg : g.WellFormed) {y : Vectors C α} (hy : y.Fits g.equations)
    {key : Key C} {b : Buffer C α} (hb : g.buffers.get? key = some b)
    (hempty : (y.buffer key).isEmpty = false) {out : Vectors C α} (hout : out.Fills g.unknowns) :
    ∃ w, (do (← b.factors).stackAdjoint (← (y.buffer key).rows) out) = .ok w ∧
      w.Fills g.unknowns ∧ ∀ u ∈ g.unknowns.cells,
        w.coordinate u = out.coordinate u + g.sentFrom y u key := by
  obtain ⟨hfactors, hn, hlinear⟩ := hg.linear hb
  have hkey : key ∈ g.equations.keys := List.mem_toFinset.2 (Table.mem_keys_iff.2 ⟨b, hb⟩)
  obtain ⟨t, ht, hshape⟩ := (hy key hkey).resolve_left (by simp [hempty])
  obtain ⟨w, hw, hfills, hcoord⟩ := hlinear.stackAdjoint hn hg.tangent hshape hout
  have hrows := Buffer.rows_of_stack ht.2
  refine ⟨w, by rw [hfactors, Checked.ok_bind, hrows, Checked.ok_bind, hw], hfills, fun u hu => ?_⟩
  rw [hcoord u hu, ← sum_range_mul]
  refine congrArg _ (Finset.sum_congr rfl fun k hk => ?_)
  have hk : k < t.shape.volume := by
    rw [hshape, Shape.volume_matrix]
    exact Finset.mem_range.1 hk
  have hentry : y.coordinate (key, k) = t.entry k := ht.coordinate hk
  rw [hentry, Nat.mul_comm (k / _), Nat.div_add_mod]
  rfl

/-- The transposes of all groups, added to what is there. -/
theorem WellFormed.adjoint_into (hg : g.WellFormed) {y : Vectors C α} (hy : y.Fits g.equations)
    {out : Vectors C α} (hout : out.Fills g.unknowns) :
    ∃ w, g.adjointInto y.buffers out = .ok w ∧ w.Fills g.unknowns ∧ ∀ u ∈ g.unknowns.cells,
      w.coordinate u = out.coordinate u + ∑ e ∈ g.equations.cells, y.coordinate e * g.coefficient e u := by
  obtain ⟨w, hw, hfills, hcoord⟩ := Checked.foldlM_induct (b := out)
    (P := fun done w => Vectors.Fills w g.unknowns ∧ ∀ u ∈ g.unknowns.cells, w.coordinate u =
      out.coordinate u + (done.map fun e : Key C × Buffer C α => g.sentFrom y u e.1).sum)
    (f := fun out e => adjointStep y.buffers out e)
    ⟨hout, by simp⟩ g.buffers.entries (by
      rintro done ⟨key, b⟩ out he ⟨hout, hcoord⟩
      have hb : g.buffers.get? key = some b := Table.get?_eq_some_iff.2 he
      cases hempty : (y.buffer key).isEmpty with
      | true =>
        refine ⟨out, if_pos hempty, hout, fun u hu => ?_⟩
        have hzero : g.sentFrom y u key = 0 := by
          refine Finset.sum_eq_zero fun k _ => ?_
          rw [Vectors.coordinate, Buffer.coordinate_of_isEmpty hempty, zero_mul]
        simp [hcoord u hu, hzero]
      | false =>
        obtain ⟨w, hw, hfills, hcoord'⟩ := hg.adjoint_group hy hb hempty hout
        refine ⟨w, ?_, hfills, fun u hu => ?_⟩
        · rw [← hw]
          exact if_neg (by rw [show (y.buffers.buffer key).isEmpty = false from hempty]; simp)
        · rw [hcoord' u hu, hcoord u hu]
          simp [add_assoc])
  refine ⟨w, hw, hfills, fun u hu => ?_⟩
  rw [hcoord u hu, sum_sentFrom]

/-- The adjoint multiplies by the transpose of the matrix. -/
theorem WellFormed.adjoint (hg : g.WellFormed) {y : Vectors C α} (hy : y.Fits g.equations) :
    ∃ w, g.adjoint y.buffers = .ok w ∧ w.Fills g.unknowns ∧ ∀ u ∈ g.unknowns.cells,
      w.coordinate u = ∑ e ∈ g.equations.cells, y.coordinate e * g.coefficient e u := by
  obtain ⟨w, hw, hfills, hcoord⟩ := hg.adjoint_into hy hg.template_fills
  refine ⟨w, hw, hfills, fun u hu => ?_⟩
  rw [hcoord u hu, hg.template_zero hu, zero_add]

/-! ## Matrix form -/

open Matrix

/-- The matrix of the forward map. -/
def matrix (g : LinearGraph C α) : Matrix g.equations.cells g.unknowns.cells α :=
  fun e u => g.coefficient e u

/-- The constants of all equations. -/
def rhs (g : LinearGraph C α) : g.equations.cells → α := fun e => g.constant e

omit [FactorFamily C] in
theorem mulVec_matrix (g : LinearGraph C α) (x : Vectors C α) (e : g.equations.cells) :
    (g.matrix *ᵥ x.onCells g.unknowns) e =
      ∑ u ∈ g.unknowns.cells, g.coefficient e u * x.coordinate u :=
  (Vectors.sum_onCells g.unknowns fun u => g.coefficient e u * x.coordinate u).symm

theorem WellFormed.forward_represents (hg : g.WellFormed) {x : Vectors C α}
    (hx : x.Fits g.unknowns) :
    ∃ w, g.forward x.bulk = .ok w ∧
      w.Represents g.equations (g.matrix *ᵥ x.onCells g.unknowns) := by
  obtain ⟨w, hw, hfills, hcoord⟩ := hg.forward hx
  refine ⟨w, hw, hfills.represents fun e he => ?_⟩
  rw [hcoord e he, mulVec_matrix]

theorem WellFormed.residuals_represents (hg : g.WellFormed) {x : Vectors C α}
    (hx : x.Fits g.unknowns) :
    ∃ w, g.residuals x.bulk = .ok w ∧
      w.Represents g.equations (g.matrix *ᵥ x.onCells g.unknowns - g.rhs) := by
  obtain ⟨w, hw, hfills, hcoord⟩ := hg.residuals hx
  refine ⟨w, hw, hfills.represents fun e he => ?_⟩
  rw [hcoord e he, Pi.sub_apply, mulVec_matrix]
  rfl

theorem WellFormed.adjoint_represents (hg : g.WellFormed) {y : Vectors C α}
    {f : g.equations.cells → α} (hy : y.Represents g.equations f) :
    ∃ w, g.adjoint y.buffers = .ok w ∧ w.Represents g.unknowns (g.matrixᵀ *ᵥ f) := by
  obtain ⟨w, hw, hfills, hcoord⟩ := hg.adjoint hy.within.fits
  refine ⟨w, hw, hfills.represents fun u hu => ?_⟩
  rw [hcoord u hu, Vectors.sum_onCells g.equations fun e => y.coordinate e * g.coefficient e u]
  refine Finset.sum_congr rfl fun e _ => ?_
  rw [hy.coordinate, mul_comm]
  rfl

theorem WellFormed.error_eq (hg : g.WellFormed) {x : Vectors C α} (hx : x.Fits g.unknowns) :
    g.error x.bulk = .ok (1 / 2 * ((g.rhs - g.matrix *ᵥ x.onCells g.unknowns) ⬝ᵥ
      (g.rhs - g.matrix *ᵥ x.onCells g.unknowns))) := by
  obtain ⟨w, hw, hrep⟩ := hg.residuals_represents hx
  unfold error
  rw [hw, Checked.ok_bind, hrep.squaredNorm, Checked.ok_bind, Scalar.half_eq,
    ← neg_sub g.rhs, neg_dotProduct_neg]
  rfl

end LinearGraph

end LeastSquares
