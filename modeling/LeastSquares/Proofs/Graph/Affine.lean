import LeastSquares.Proofs.Factor.Displacement
import LeastSquares.Proofs.Graph.Linearize

/-!
# Graphs of affine factors

The error of a graph whose factors have affine residuals, at a store that was moved along tangent
vectors, is the error of its linearisation at these vectors.
-/

namespace LeastSquares

open Matrix

/-! ## Reading what has moved -/

section Reading

variable {C α : Type} [DecidableEq C] [LinearOrder α] [ExactScalar α] {s p : Store C α}
  {d : Vectors C α} {g : LinearGraph C α}

/-- What is read at a handle in a store, in tangent vectors and in the store moved along them. -/
theorem LinearGraph.TangentTo.exists_displacement [FactorFamily C] (h : g.TangentTo s)
    (hp : s.Moves d p) (hd : d.Fits g.unknowns) {a : Handle (Block α)} (ha : a.Points s.layout)
    (heuclidean : a.type.isEuclidean = true) :
    ∃ x : Displacement α, (s.bulk a.inStack = .ok x.start ∧ d.bulk a.inStack = .ok x.along ∧
      p.bulk a.inStack = .ok x.stop) ∧ x.Of a.type := by
  obtain ⟨T, index⟩ := a
  obtain ⟨hkey, t, rfl, hshape, place, hplace⟩ := ha
  have hdiff : T.isDifferentiable = true := VariableType.isDifferentiable_of_isEuclidean heuclidean
  have hT : Key.type T ∈ s.tangents.keys := Store.mem_tangents.2 ⟨hkey, hdiff⟩
  obtain ⟨hrows, hwidth⟩ := h.extents hT
  have hshaped := hd _ (h.mem_unknowns.2 hT)
  rw [hwidth] at hshaped
  obtain ⟨b, hb, u, rfl, hushape, hentry⟩ := Vectors.bulk_of_shaped hshaped ⟨t, rfl, hshape, rfl⟩
    (hrows ▸ hplace)
  have hkey' : Key.type T ∈ p.layout.keys := by rwa [hp.layout]
  have hplace' : target (p.layout.rows (.type T)) (t.entry 0) = some place := by rwa [hp.layout]
  have hstores := h.wellFormed.stores hkey
  have hstores' := hp.wellFormed.stores hkey'
  refine ⟨⟨_, _, _⟩, ⟨h.wellFormed.bulk hkey hshape hplace, hb, hp.wellFormed.bulk hkey' hshape hplace'⟩,
    heuclidean, hstores.row_isReal hdiff place, hstores'.row_isReal hdiff place, ⟨u, rfl, hushape⟩,
    fun c hc => ?_⟩
  have hcell : c < Shape.volume [T.tangentDim] := by rwa [Shape.volume_row]
  refine (hp.coordinate T hkey heuclidean place (target_lt hplace) c hc).trans (congrArg _ ?_)
  exact (hentry c hcell).symm.trans (Value.coordinate_eq_entry (List.append_nil _).symm c).symm

end Reading

namespace Factor

variable {C α : Type} [DecidableEq C] [FactorFamily C] [LinearOrder α] [ExactScalar α]
  {s p : Store C α} {d : Vectors C α} {linear : LinearGraph C α}

/-! ## One factor -/

/-- Wherever the values of Euclidean variables are read, the part has the residual of the factor. -/
def SameResidual (part f : FactorStack C α) : Prop :=
  ∀ (read : Reader α) values ws, f.values read = .ok values → Typed f.types values →
    part.values read = .ok ws → part.residual ws = f.residual values

/-- The residual of a factor is affine in Euclidean variables. The part that is differentiated has the
same residual, and a transpose that the factor gives is that of its coefficients. -/
structure Affine (f : FactorStack C α) : Prop where
  euclidean : ∀ t ∈ f.types, t.isEuclidean = true
  coefficients : match f.kind.rank with
    | .scalar => False
    | .vector => ∀ (read : Reader α) values part ws, f.values read = .ok values →
        Typed f.types values → f.component values = .ok (part, ws) →
        part.values read = .ok ws ∧ part.SameResidual f ∧ ∃ m A b, part.AffineIn m A b
    | .gaussian => ∃ m A b, f.AffineBy m A b

omit [DecidableEq C] in
/-- The factors of a lawful class that gives its transpose are affine. -/
theorem Lawful.affine_row {L : Layout C} {f : FactorStack C α} {n i : Nat} (h : f.Lawful L n)
    (hrank : f.kind.rank = .gaussian) (hi : i < n) : (f.row i).Affine := by
  obtain ⟨-, m, A, b, haffine⟩ := h.affine hrank hi
  refine ⟨haffine.euclidean, ?_⟩
  rw [show (f.row i).kind.rank = .gaussian from hrank]
  exact ⟨m, A, b, haffine⟩

section Rows

variable {f g : FactorStack C α} {values : List (Found α)}

/-- The values of the variables of a factor in a store, in tangent vectors and in the store moved along
them. -/
theorem exists_displacements (htangent : linear.TangentTo s) (hp : s.Moves d p)
    (hd : d.Fits linear.unknowns) (hpoints : ∀ a ∈ f.handles, a.Points s.layout)
    (heuclidean : ∀ t ∈ f.types, t.isEuclidean = true) :
    ∃ ds : List (Displacement α), List.Forall₂ (fun t x => x.Of t) f.types ds ∧
      f.values s.bulk = .ok (ds.map (·.start)) ∧ f.values d.bulk = .ok (ds.map (·.along)) ∧
      f.values p.bulk = .ok (ds.map (·.stop)) := by
  have hone : ∀ a ∈ f.handles, ∃ x : Displacement α, (s.bulk a.inStack = .ok x.start ∧
      d.bulk a.inStack = .ok x.along ∧ p.bulk a.inStack = .ok x.stop) ∧ x.Of a.type :=
    fun a ha => htangent.exists_displacement hp hd (hpoints a ha)
      (heuclidean a.type (List.mem_map_of_mem ha))
  unfold values types
  generalize f.handles = handles at hone
  induction handles with
  | nil => exact ⟨[], .nil, rfl, rfl, rfl⟩
  | cons a handles ih =>
    obtain ⟨x, ⟨hstart, halong, hstop⟩, hx⟩ := hone a (by simp)
    obtain ⟨ds, hds, hstarts, halongs, hstops⟩ := ih fun b hb => hone b (by simp [hb])
    refine ⟨x :: ds, .cons hx hds, ?_, ?_, ?_⟩
    · rw [List.mapM_cons, hstart, Checked.ok_bind, hstarts]
      rfl
    · rw [List.mapM_cons, halong, Checked.ok_bind, halongs]
      rfl
    · rw [List.mapM_cons, hstop, Checked.ok_bind, hstops]
      rfl

/-- The linear factors agree: the residual of a factor in a store that was moved, and that of what the
factor becomes, along the tangent vectors. -/
def Agrees (f g : FactorStack C α) (p : Store C α) (d : Vectors C α) : Prop :=
  ∃ values ws m r q, f.values p.bulk = .ok values ∧ f.residual values = .ok (.reals r) ∧
    r.shape = [m] ∧ g.values d.bulk = .ok ws ∧ g.residual ws = .ok (.reals q) ∧ q.shape = [m] ∧
    ∀ j, j < m → q.entry j = r.entry j

/-- What an affine part becomes agrees with it. -/
theorem AffineIn.agrees {m : Nat} {A : List (Nat → Nat → α)} {b : Nat → α} (h : f.AffineIn m A b)
    (hne : f.handles ≠ []) (htangent : linear.TangentTo s) (hp : s.Moves d p)
    (hd : d.Fits linear.unknowns) (hpoints : ∀ a ∈ f.handles, a.Points s.layout)
    (hvalues : f.values s.bulk = .ok values) {r : Tensor α}
    (hr : f.residual values = .ok (.reals r)) :
    Agrees f (ofJacobian f.handles (coefficientBlocks f.types m A) (.generate [m] fun j => -r.entry j))
      p d := by
  obtain ⟨ds, hds, hstart, halong, hstop⟩ :=
    exists_displacements htangent hp hd hpoints h.euclidean
  obtain rfl := Except.ok.inj (hstart.symm.trans hvalues)
  obtain ⟨r₀, r', q, hr₀, -, hr', hshape', hq, hqshape, hentry⟩ := h.residual_stop hne hds
  obtain rfl := Block.reals.inj (Except.ok.inj (hr₀.symm.trans hr))
  exact ⟨_, _, m, r', q, hstop, hr', hshape', halong, hq, hqshape, hentry⟩

/-- What an affine factor becomes agrees with it. -/
theorem Affine.agrees (h : f.Affine) (hparted : f.Parted) (hne : f.handles ≠ [])
    (htangent : linear.TangentTo s) (hp : s.Moves d p) (hd : d.Fits linear.unknowns)
    (hpoints : ∀ a ∈ f.handles, a.Points s.layout) (hvalues : f.values s.bulk = .ok values)
    (hg : f.linearized values = .ok g) : Agrees f g p d := by
  obtain ⟨ds, hds, hstart, -, hstop⟩ :=
    exists_displacements htangent hp hd hpoints h.euclidean
  obtain rfl := Except.ok.inj (hstart.symm.trans hvalues)
  have hcoefficients := h.coefficients
  unfold linearized at hg
  cases hrank : f.kind.rank with
  | scalar =>
    rw [hrank] at hcoefficients
    exact hcoefficients.elim
  | gaussian =>
    rw [hrank] at hcoefficients hg
    obtain ⟨m, A, b, haffine⟩ := hcoefficients
    obtain ⟨r, hr, hshape, -⟩ := haffine.residual (Displacement.typed_start hds)
    obtain rfl := Except.ok.inj ((haffine.linearizingAffine_eq hr hshape).symm.trans hg)
    exact haffine.toAffineIn.agrees hne htangent hp hd hpoints hstart hr
  | vector =>
    rw [hrank] at hcoefficients hg
    obtain ⟨⟨part, ws⟩, hpart, hg⟩ := Checked.bind_eq_ok hg
    obtain ⟨hws, hsame, m, A, b, haffine⟩ :=
      hcoefficients s.bulk _ part ws hstart (Displacement.typed_start hds) hpart
    obtain ⟨hpartne, hmem⟩ := hparted _ part ws hpart
    have hpartpoints : ∀ a ∈ part.handles, a.Points s.layout := fun a ha => hpoints a (hmem a ha).1
    obtain ⟨es, hes, hpartstart, -, -⟩ :=
      exists_displacements htangent hp hd hpartpoints haffine.euclidean
    obtain rfl := Except.ok.inj (hpartstart.symm.trans hws)
    obtain ⟨r, hr, -⟩ := haffine.residual (Displacement.typed_start hes)
    obtain rfl := Except.ok.inj
      ((haffine.linearizing_eq (Displacement.typed_start hes) hr).symm.trans hg)
    obtain ⟨vs, us, m', r', q, hvs, hr', hshape', hus, hq, hqshape, hentry⟩ :=
      haffine.agrees hpartne htangent hp hd hpartpoints hws hr
    have hsame := hsame p.bulk _ _ hstop (Displacement.typed_stop hds) hvs
    exact ⟨_, us, m', r', q, hstop, hsame.symm.trans hr', hshape', hus, hq, hqshape, hentry⟩

end Rows

/-! ## One stack -/

section Stacks

variable {L : Layout C} {f F : FactorStack C α} {n m : Nat}

omit [DecidableEq C] [FactorFamily C] in
/-- The value of half a squared norm. -/
theorem halfSquaredNorm_reals (r : Tensor α) : ∃ e, halfSquaredNorm (.reals r) = .ok e ∧
    e.sum.value = ∑ k ∈ Finset.range r.shape.volume, 1 / 2 * r.entry k ^ 2 := by
  obtain ⟨u, hu, hshape, hentry⟩ := Block.zipWith?_of_shape (f := (· * ·)) (rfl : r.shape = r.shape)
  refine ⟨(Block.reals u).sum.scaled Scalar.half, ?_, ?_⟩
  · rw [halfSquaredNorm, Block.mul?, Block.arith?_of_real (by simp), Block.toReals_reals, hu]
    rfl
  · have hvalue : ((Block.reals u).sum.scaled Scalar.half).sum.value =
        Scalar.half * Scalar.sum u.cells := by
      simp [Block.scaled, Block.sum, Block.real, Block.value, Block.toReals, Tensor.scalar, Tensor.map,
        Tensor.entry, Scalar.sum]
    rw [hvalue, Scalar.half_eq, Block.sum_cells, hshape, Finset.mul_sum]
    refine Finset.sum_congr rfl fun k hk => ?_
    rw [hentry k (Finset.mem_range.1 hk), sq]

/-- The error of a stack of factors that agree with linear ones. -/
theorem stackError_of_agrees (hrows : f.rows = .ok ((List.range n).map f.row))
    (hF : F.Linear L n m) (hL : L.Tangent) (hd : d.Fits L)
    (hagrees : ∀ i, i < n → Agrees (f.row i) (F.row i) p d) :
    f.stackError p.bulk = .ok (∑ i ∈ Finset.range n, ∑ j ∈ Finset.range m,
      1 / 2 * (F.image L d i j - F.offset i j) ^ 2) := by
  have hone : ∀ i ∈ List.range n, ∃ e, ((f.row i).values p.bulk >>= (f.row i).error) = .ok e ∧
      ∑ j ∈ Finset.range m, 1 / 2 * (F.image L d i j - F.offset i j) ^ 2 = e.sum.value := by
    intro i hi
    have hi := List.mem_range.1 hi
    obtain ⟨values, ws, m', r, q, hvalues, hr, hshape, hws, hq, hqshape, hentry⟩ := hagrees i hi
    obtain ⟨vs, b, hvs, hb, u, rfl, hushape, huentry⟩ := hF.residual_row hL hd hi
    obtain rfl := Except.ok.inj (hws.symm.trans hvs)
    obtain rfl := Block.reals.inj (Except.ok.inj (hq.symm.trans hb))
    obtain rfl : m' = m := by simpa using hqshape.symm.trans hushape
    obtain ⟨e, he, hvalue⟩ := halfSquaredNorm_reals r
    refine ⟨e, ?_, ?_⟩
    · rw [hvalues, Checked.ok_bind, error_of_residual hr, he]
    · rw [hvalue, hshape, Shape.volume_row]
      refine Finset.sum_congr rfl fun j hj => ?_
      have hj := Finset.mem_range.1 hj
      rw [← hentry j hj, huentry j (by rwa [Shape.volume_row])]
  obtain ⟨es, hes, hvalues⟩ := Checked.mapM_forall₂ hone
  have herrors : f.stackErrors p.bulk = .ok (es.map fun e => e.sum.value) := by
    unfold stackErrors overRows
    rw [hrows, Checked.ok_bind, List.mapM_map]
    exact congrArg (fun x : Checked (List (Block α)) => x >>= fun errors =>
      Except.ok (errors.map fun e => e.sum.value)) hes
  rw [stackError, herrors, Checked.ok_bind]
  refine congrArg Except.ok ?_
  rw [Scalar.foldl_add_eq, Scalar.zero_eq, zero_add, eq_map_of_forall₂
    (f := fun i => ∑ j ∈ Finset.range m, 1 / 2 * (F.image L d i j - F.offset i j) ^ 2)
    (List.forall₂_map_right_iff.2 hvalues)]
  exact Block.sum_map_range _ n

end Stacks

end Factor

/-! ## Graphs -/

namespace FactorGraph

variable {C α : Type} [DecidableEq C] [FactorFamily C] [LinearOrder α] [ExactScalar α]
  {graph : FactorGraph C α} {linear : LinearGraph C α} {s p : Store C α} {d : Vectors C α}

/-- Every factor has an affine residual. -/
def Affine (graph : FactorGraph C α) : Prop :=
  ∀ key b, graph.buffers.get? key = some b → ∃ f n, b.factors = .ok f ∧ f.rowCount = .ok n ∧
    f.kind.hasResidual = true ∧ ∀ i, i < n → (f.row i).Affine

/-- A proper graph is affine where all its classes give their transposes. -/
theorem Proper.affine {L : Layout C} (hg : graph.Proper L)
    (hgaussian : ∀ key b f, graph.buffers.get? key = some b → b.factors = .ok f →
      f.kind.rank = .gaussian) : graph.Affine := by
  intro key b hb
  obtain ⟨f, hcontent, hstack, hproper⟩ := hg key b hb
  have hf : b.factors = .ok f := by rw [Buffer.factors, hcontent, hstack]
  have hrank := hgaussian key b f hb hf
  have hresidual : f.kind.hasResidual = true := by rw [FactorClass.hasResidual, hrank]; rfl
  obtain ⟨n, hn⟩ := hproper hresidual
  exact ⟨f, n, hf, hn.rowCount, hresidual, fun i hi => hn.lawful.affine_row hrank hi⟩

/-- The squared residuals of a group, halved and added up. -/
def groupError (linear : LinearGraph C α) (d : Vectors C α) (key : Key C) : α :=
  ∑ k ∈ Finset.range (linear.equations.size key), Scalar.half *
    (∑ u ∈ linear.unknowns.cells, linear.coefficient (key, k) u * d.coordinate u -
      linear.constant (key, k)) ^ 2

/-- The factors of an affine group agree with what they became, one by one. -/
theorem Affine.rows_agree (haffine : graph.Affine) (hg : graph.Proper s.layout)
    (htangent : linear.TangentTo s) (hp : s.Moves d p) (hd : d.Fits linear.unknowns) {key : Key C}
    {b c : Buffer C α} (hb : graph.buffers.get? key = some b) (h : Linearizes s linear.unknowns b c) :
    ∃ f F n m, b.factors = .ok f ∧ c.factors = .ok F ∧ f.rows = .ok ((List.range n).map f.row) ∧
      F.Linear linear.unknowns n m ∧ ∀ i, i < n → Factor.Agrees (f.row i) (F.row i) p d := by
  obtain ⟨f, F, n, m, hf, hF, hrows, hn, hFlinear, happrox⟩ := h
  refine ⟨f, F, n, m, hf, hF, hrows, hFlinear, fun i hi => ?_⟩
  obtain ⟨f', k, hf', hk, hresidual, hrow⟩ := haffine key b hb
  obtain rfl := Except.ok.inj (hf.symm.trans hf')
  obtain ⟨f', hcontent, hstack', hproper⟩ := hg key b hb
  have hf' : b.factors = .ok f' := by rw [Buffer.factors, hcontent, hstack']
  obtain rfl := Except.ok.inj (hf.symm.trans hf')
  obtain ⟨k', hf'⟩ := hproper hresidual
  obtain rfl := Except.ok.inj (hk.symm.trans hf'.rowCount)
  obtain rfl : k = n := by
    have hlength := congrArg List.length (Except.ok.inj (hf'.rows.symm.trans hrows))
    simpa using hlength
  obtain ⟨values, hvalues, hlinearized, -⟩ := happrox i hi
  refine (hrow i hi).agrees (hf'.lawful.parted hresidual hf'.connected hi)
    (by simpa [Factor.row, Factor.map] using hf'.connected) htangent hp hd (fun a ha => ?_) hvalues
    hlinearized
  obtain ⟨a', ha', rfl⟩ := List.mem_map.1 ha
  exact (hf'.addressed a' ha').points hi

/-- The error of one group. -/
theorem Affine.stackError (haffine : graph.Affine) (hg : graph.Proper s.layout)
    (hlinear : linear.WellFormed) (htangent : linear.TangentTo s)
    (hp : s.Moves d p) (hd : d.Fits linear.unknowns) {key : Key C} {b c : Buffer C α}
    (hb : graph.buffers.get? key = some b) (hc : linear.buffers.get? key = some c)
    (h : Linearizes s linear.unknowns b c) :
    (b.factors >>= fun f => f.stackError p.bulk) = .ok (groupError linear d key) := by
  obtain ⟨f, F, n, m, hf, hF, hrows, hFlinear, hagrees⟩ :=
    haffine.rows_agree hg htangent hp hd hb h
  obtain ⟨hstack, -, hstacklinear⟩ := hlinear.linear hc
  obtain rfl := Except.ok.inj (hF.symm.trans hstack)
  have hcount : linear.equations.rows key = n :=
    Except.ok.inj (hstacklinear.count_eq.symm.trans hFlinear.count_eq)
  have hwidth : linear.equations.width key = m :=
    hstacklinear.residualDim_eq.symm.trans hFlinear.residualDim_eq
  rw [hf, Checked.ok_bind,
    Factor.stackError_of_agrees hrows hFlinear hlinear.tangent hd hagrees]
  refine congrArg Except.ok ?_
  simp only [groupError, Scalar.half_eq]
  rw [Layout.size, hcount, hwidth, ← LinearGraph.sum_range_mul n m fun i j => 1 / 2 *
    ((linear.stack key).image linear.unknowns d i j - (linear.stack key).offset i j) ^ 2]
  refine Finset.sum_congr rfl fun e _ => ?_
  simp only [LinearGraph.coefficient, LinearGraph.constant, hwidth]
  rfl

/-- Every group of an affine graph becomes linear. -/
theorem Affine.becomes (haffine : graph.Affine) (hg : graph.Proper s.layout) {L : Layout C}
    {key : Key C} {b : Buffer C α} (hb : graph.buffers.get? key = some b) {image : Option (Buffer C α)}
    (h : BecomesLinear s L b image) : ∃ c, image = some c ∧ Linearizes s L b c := by
  cases image with
  | some c => exact ⟨c, rfl, h.2⟩
  | none =>
    obtain ⟨f, n, hf, -, hresidual, -⟩ := haffine key b hb
    obtain ⟨f', hcontent, hstack, -⟩ := hg key b hb
    have hf' : b.factors = .ok f' := by rw [Buffer.factors, hcontent, hstack]
    obtain rfl := Except.ok.inj (hf.symm.trans hf')
    have h : b.hasResiduals = false := h
    rw [Buffer.hasResiduals, hcontent] at h
    cases h.symm.trans hresidual

/-- The error of a linear graph, group by group. -/
theorem error_eq_sum_groupError (hlinear : linear.WellFormed) (hd : d.Fits linear.unknowns) :
    linear.error d.bulk = .ok (linear.buffers.keys.map (groupError linear d)).sum := by
  have hcells := Layout.sum_cells_of_keys (L := linear.equations) (l := linear.buffers.keys) rfl
    linear.buffers.distinct fun e => Scalar.half *
      (∑ u ∈ linear.unknowns.cells, linear.coefficient e u * d.coordinate u - linear.constant e) ^ 2
  rw [hlinear.error_eq hd]
  refine congrArg Except.ok (Eq.trans ?_ hcells)
  rw [dotProduct, Finset.mul_sum, ← Finset.sum_coe_sort linear.equations.cells fun e => Scalar.half *
    (∑ u ∈ linear.unknowns.cells, linear.coefficient e u * d.coordinate u - linear.constant e) ^ 2]
  refine Finset.sum_congr rfl fun e _ => ?_
  rw [Pi.sub_apply, LinearGraph.mulVec_matrix, LinearGraph.rhs, Scalar.half_eq]
  ring

/-- The error of an affine graph, where its store was moved along tangent vectors, is that of the
linearisation at these vectors. -/
theorem Affine.error_eq (haffine : graph.Affine) (hs : s.WellFormed) (hg : graph.Proper s.layout)
    (h : graph.linearize s = .ok linear) (hp : s.Moves d p) (hd : d.Fits linear.unknowns) :
    graph.error p.bulk = linear.error d.bulk := by
  have hlinear := hg.wellFormed hs h
  obtain ⟨htangent, image, hentries, himage⟩ := hg.linearize hs h
  have hsome := fun e (he : e ∈ graph.buffers.entries) =>
    haffine.becomes hg (Table.get?_eq_some_iff.2 he) (himage e he)
  have hkeys : linear.buffers.keys = graph.buffers.keys := by
    rw [Table.keys, hentries]
    exact Table.keys_images fun e he => (hsome e he).imp fun c hc => hc.1
  obtain ⟨total, htotal, hsum⟩ := Checked.foldlM_induct (b := (Scalar.zero : α))
    (P := fun done total => total = (done.map fun e : Key C × Buffer C α =>
      groupError linear d e.1).sum)
    (f := fun total (e : Key C × Buffer C α) => do
      return total + (← (← e.2.factors).stackError p.bulk)) Scalar.zero_eq graph.buffers.entries
    fun done e total he hdone => by
      obtain ⟨c, hc, hlinearizes⟩ := hsome e he
      have hget : linear.buffers.get? e.1 = some c := by
        rw [Table.get?_eq_some_iff, hentries]
        exact List.mem_filterMap.2 ⟨e, he, by rw [hc]; rfl⟩
      have hgroup := haffine.stackError hg hlinear htangent hp hd (Table.get?_eq_some_iff.2 he) hget
        hlinearizes
      refine ⟨total + groupError linear d e.1, ?_, ?_⟩
      · rw [← bind_assoc, hgroup]
        rfl
      · rw [hdone, List.map_append, List.sum_append, List.map_singleton, List.sum_singleton]
  rw [error_eq_sum_groupError hlinear hd, hkeys, Table.keys, List.map_map]
  exact htotal.trans (congrArg Except.ok hsum)

end FactorGraph

end LeastSquares
