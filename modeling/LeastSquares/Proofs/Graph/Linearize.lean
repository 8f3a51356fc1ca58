import LeastSquares.Proofs.Buffer.Store
import LeastSquares.Graph.Nonlinear
import LeastSquares.Proofs.Factor.Linearized
import LeastSquares.Proofs.Graph.DesignMatrix

/-!
# Linearised graphs

A graph whose handles address values of a well-formed store, and whose classes keep to their contracts,
becomes a well-formed linear graph in the tangent vectors of the store. The gradient of its error is
the adjoint of the linear graph applied to the residuals at zero: the two are added up stack by stack,
in the same order.
-/

namespace LeastSquares

namespace Factor

variable {C α : Type} [DecidableEq C] [FactorFamily C] [LinearOrder α] [ExactScalar α]
  {L : Layout C} {n i : Nat} {f : FactorStack C α} {s : Store C α}

/-- What the class of a stack promises. Explicit and scalar Jacobians fit the vectors that they are
applied to, a label chooses a motion between variables of one type, the differentiable part of a factor
of the client connects variables of the factor, and a factor of the client that gives its transpose is
affine. -/
def Lawful (L : Layout C) (n : Nat) (f : FactorStack C α) : Prop :=
  match f.kind with
  | .jacobian | .scalarJacobian => (∀ t ∈ f.types, t.IsVector) ∧ ∃ m, f.Linear L n m
  | .prior | .between => True
  | .switchingBetween => ∃ t, f.types = [t, .discrete, t] ∧ t.isDifferentiable = true
  | .client c => match FactorFamily.rank c with
    | .scalar => True
    | .vector => ∀ i, i < n → (f.row i).Parted
    | .gaussian => FactorFamily.component c = none ∧
        ∀ i, i < n → ∃ m A b, (f.row i).AffineBy m A b

/-- A stack of `n` factors that connect values of a store, and are linearised one by one. -/
structure Proper (L : Layout C) (n : Nat) (f : FactorStack C α) : Prop where
  rowCount : f.rowCount = .ok n
  connected : f.handles ≠ []
  addressed : ∀ a ∈ f.handles, a.Addresses L n
  rowwise : f.Rowwise
  lawful : f.Lawful L n

omit [DecidableEq C] [FactorFamily C] in
theorem types_row (f : FactorStack C α) (i : Nat) : (f.row i).types = f.types := by
  simp [types, row, map]

theorem Proper.rows (h : f.Proper L n) : f.rows = .ok ((List.range n).map f.row) := by
  rw [Factor.rows, h.rowCount]
  rfl

/-! ## One factor -/

omit [DecidableEq C] in
/-- Each factor of a lawful class is linearised in a part that connects some of its variables. -/
theorem Lawful.parted (h : f.Lawful L n) (hresidual : f.kind.hasResidual = true)
    (connected : f.handles ≠ []) (hi : i < n) : (f.row i).Parted := by
  have hrank : f.kind.rank ≠ .scalar := by simpa [FactorClass.hasResidual] using hresidual
  have hown : OwnPart f.kind → (f.row i).Parted := fun hown =>
    parted_of_ownPart (f := f.row i) hown hrank (by simpa [row, map] using connected)
  unfold Lawful at h
  cases hk : f.kind with
  | switchingBetween =>
    rw [hk] at h
    obtain ⟨t, htypes, ht⟩ := h
    exact parted_switching hk ((types_row f i).trans htypes) ht
  | client c =>
    rw [hk] at h hrank
    simp only at h
    split at h
    next hr => exact absurd hr hrank
    next => exact h i hi
    next => exact hown ⟨by simp [hk], fun c' hc' => by
      rw [hk] at hc'
      cases hc'
      exact h.1⟩
  | _ => exact hown ⟨by simp [hk], fun c' hc' => by rw [hk] at hc'; cases hc'⟩

omit [DecidableEq C] in
/-- A row of a linear stack over vectors is affine. -/
theorem Linear.affine {m : Nat} (h : f.Linear L n m) (hvector : ∀ t ∈ f.types, t.IsVector) (i : Nat) :
    ∃ A b, (f.row i).AffineBy m A b := by
  cases h with
  | @jacobian m label handles blocks error connected shapes error_shape _ =>
    have hblocks : (blocks.map fun B => Tree.leaf (B.row i)) =
        (blocks.map (·.row i)).map .leaf := by
      rw [List.map_map]
      rfl
    rw [row_jacobian, hblocks]
    refine ⟨_, _, affineBy_jacobian (by simpa using connected) (fun a ha => ?_) ?_
      (Block.shape_row error_shape i)⟩
    · obtain ⟨b, hb, rfl⟩ := List.mem_map.1 ha
      exact hvector b.type (List.mem_map.2 ⟨b, hb, rfl⟩)
    · rw [List.forall₂_map_left_iff, List.forall₂_map_right_iff]
      exact shapes.imp fun a B hB => Block.shape_row hB i
  | @scalarJacobian a scalar scalar_shape _ =>
    exact ⟨_, _, affineBy_scalarJacobian (rowHandle a i) (scalar.row i)
      (hvector a.type (by simp [types])) (Block.shape_row scalar_shape i)⟩

omit [DecidableEq C] in
/-- A factor of a lawful class that gives its transpose is affine. -/
theorem Lawful.affine (h : f.Lawful L n) (hrank : f.kind.rank = .gaussian) (hi : i < n) :
    OwnPart f.kind ∧ ∃ m A b, (f.row i).AffineBy m A b := by
  unfold Lawful at h
  cases hk : f.kind with
  | client c =>
    rw [hk] at h hrank
    simp only at h
    split at h
    next hr => cases hr.symm.trans hrank
    next hr => cases hr.symm.trans hrank
    next => exact ⟨⟨nofun, fun c' hc' => by cases hc'; exact h.1⟩, h.2 i hi⟩
  | jacobian | scalarJacobian =>
    rw [hk] at h
    obtain ⟨hvector, m, hlinear⟩ := h
    exact ⟨⟨nofun, nofun⟩, m, hlinear.affine hvector i⟩
  | _ => rw [hk] at hrank; cases hrank

/-! ## Reading values -/

omit [FactorFamily C] in
/-- The value of a variable of a factor is a row of the values of its type. -/
theorem read_of_points (hs : s.WellFormed) {a : Handle (Block α)} (ha : a.Points s.layout) :
    ∃ place, place < s.layout.rows (.type a.type) ∧
      s.bulk a.inStack = .ok ⟨(s.valuesOf a.type).row place, .clamped⟩ := by
  obtain ⟨type, index⟩ := a
  obtain ⟨hkey, t, rfl, hshape, place, hplace⟩ := ha
  exact ⟨place, target_lt hplace, hs.bulk hkey hshape hplace⟩

omit [FactorFamily C] in
/-- The values of Euclidean variables that a factor reads in a store. -/
theorem typed_values (hs : s.WellFormed) (haddressed : ∀ a ∈ f.handles, a.Addresses s.layout n)
    (heuclidean : ∀ t ∈ f.types, t.isEuclidean = true) (hi : i < n) {values : List (Found α)}
    (h : (f.row i).values s.bulk = .ok values) : Typed (f.row i).types values := by
  have hreads := Checked.forall₂_of_mapM h
  rw [types_row, Typed, types, List.forall₂_map_left_iff]
  replace hreads : List.Forall₂ (fun a x => s.bulk (rowHandle a i).inStack = .ok x) f.handles values :=
    List.forall₂_map_left_iff.1 hreads
  have hboth := (List.forall₂_and_left (p := fun a => a ∈ f.handles) _ _).2 ⟨fun _ h => h, hreads⟩
  refine hboth.imp fun a x hax => ?_
  obtain ⟨ha, hx⟩ := hax
  have hdiff := VariableType.isDifferentiable_of_isEuclidean
    (heuclidean a.type (List.mem_map_of_mem ha))
  obtain ⟨place, -, hread⟩ := read_of_points hs ((haddressed a ha).points hi)
  obtain rfl := Except.ok.inj (hread.symm.trans hx)
  exact (hs.stores (haddressed a ha).1).row_isReal hdiff place

/-- What a factor of a proper stack becomes approximates it. -/
theorem Proper.approximates (hs : s.WellFormed) (h : f.Proper s.layout n)
    (hresidual : f.kind.hasResidual = true) (hi : i < n) {values : List (Found α)}
    {g : FactorStack C α} (hvalues : (f.row i).values s.bulk = .ok values)
    (hg : (f.row i).linearized values = .ok g) : Approximates (f.row i) values g := by
  cases hrank : f.kind.rank with
  | scalar => simp [FactorClass.hasResidual, hrank] at hresidual
  | vector => exact approximates_of_vector hrank hg
  | gaussian =>
    obtain ⟨hown, m, A, b, haffine⟩ := h.lawful.affine hrank hi
    have heuclidean : ∀ t ∈ f.types, t.isEuclidean = true := by
      rw [← types_row f i]
      exact haffine.euclidean
    obtain ⟨g', hg', happrox⟩ := haffine.approximates hrank hown
      (typed_values hs h.addressed heuclidean hi hvalues)
    obtain rfl := Except.ok.inj (hg'.symm.trans hg)
    exact happrox

/-! ## One stack -/

/-- A proper stack becomes a linear stack whose rows approximate its factors. -/
theorem Proper.linearized (hs : s.WellFormed) (h : f.Proper s.layout n)
    (hresidual : f.kind.hasResidual = true) {T : Layout C}
    (hT : ∀ a : Handle (Block α), a.Points s.layout → a.type.isDifferentiable = true → a.Points T)
    {F : FactorStack C α} (hF : f.stackLinearized s.bulk = .ok F) :
    0 < n ∧ (∃ m, F.Linear T n m) ∧ RowsApproximate s.bulk f n F := by
  refine stackLinearized_spec h.rowwise hF h.rows
    (fun i hi => h.lawful.parted hresidual h.connected hi) (fun i hi a ha hdiff => ?_)
    fun i hi values g => h.approximates hs hresidual hi
  obtain ⟨b, hb, rfl⟩ := List.mem_map.1 ha
  exact hT _ ((h.addressed b hb).points hi) hdiff

end Factor

/-! ## The template -/

namespace LinearGraph

variable {C α : Type} [DecidableEq C] [LinearOrder α] [ExactScalar α] {g : LinearGraph C α}
  {s : Store C α}

/-- The template of a linear graph is the zero tangent vectors of a store. -/
structure TangentTo (g : LinearGraph C α) (s : Store C α) : Prop where
  wellFormed : s.WellFormed
  template : s.tangentZeros = .ok g.template

theorem TangentTo.entries (h : g.TangentTo s) :
    g.template.buffers.entries = Table.images Store.zerosFor s.buffers.entries := by
  obtain ⟨z, hz, hentries⟩ := h.wellFormed.tangentZeros
  obtain rfl := Except.ok.inj (hz.symm.trans h.template)
  exact hentries

/-- Under a key of the template there is an array of zeros, with a row for each value of the store. -/
theorem TangentTo.get? (h : g.TangentTo s) {key : Key C} {b : Buffer C α}
    (hb : g.template.buffers.get? key = some b) :
    ∃ T, key = .type T ∧ key ∈ s.tangents.keys ∧ 0 < s.layout.rows key ∧
      b = .tangentZeros T (s.layout.rows key) := by
  have hmem := Table.get?_eq_some_iff.1 hb
  rw [h.entries] at hmem
  exact h.wellFormed.mem_tangentZeros hmem

theorem TangentTo.buffer (h : g.TangentTo s) {T : VariableType}
    (hT : Key.type T ∈ s.tangents.keys) :
    g.template.buffer (.type T) = .tangentZeros T (s.layout.rows (.type T)) ∧
      Key.type T ∈ g.template.buffers.keys := by
  obtain ⟨b, hb⟩ := Store.mem_keys_images h.wellFormed hT
  rw [← h.entries] at hb
  have hget := Table.get?_eq_some_iff.2 hb
  obtain ⟨T', hkey, -, -, rfl⟩ := h.get? hget
  obtain rfl := Key.type.inj hkey
  exact ⟨Buffers.buffer_of_get? hget, Table.mem_keys_iff.2 ⟨_, hget⟩⟩

theorem TangentTo.mem_unknowns (h : g.TangentTo s) {key : Key C} :
    key ∈ g.unknowns.keys ↔ key ∈ s.tangents.keys := by
  constructor
  · intro hkey
    obtain ⟨b, hb⟩ := Table.mem_keys_iff.1 (List.mem_toFinset.1 (Finset.mem_filter.1 hkey).1)
    obtain ⟨T, rfl, hmem, -⟩ := h.get? hb
    exact hmem
  · intro hkey
    obtain ⟨hmem, hdiff⟩ := Store.mem_tangents.1 hkey
    cases key with
    | group k => cases hdiff
    | type T =>
      obtain ⟨hbuffer, hT⟩ := h.buffer hkey
      exact Finset.mem_filter.2 ⟨List.mem_toFinset.2 hT, by rw [hbuffer]; rfl⟩

theorem TangentTo.extents (h : g.TangentTo s) {T : VariableType}
    (hT : Key.type T ∈ s.tangents.keys) :
    g.unknowns.rows (.type T) = s.layout.rows (.type T) ∧
      g.unknowns.width (.type T) = T.tangentDim := by
  have hbuffer := (h.buffer hT).1
  show (g.template.buffer (.type T)).extents.1 = _ ∧ (g.template.buffer (.type T)).extents.2 = _
  rw [hbuffer]
  exact ⟨rfl, rfl⟩

/-- A handle of a variable with a tangent space addresses the same row in the template. -/
theorem TangentTo.points (h : g.TangentTo s) {a : Handle (Block α)} (ha : a.Points s.layout)
    (hdiff : a.type.isDifferentiable = true) : a.Points g.unknowns := by
  obtain ⟨hkey, t, ht, hshape, place, hplace⟩ := ha
  have hT := Store.mem_tangents.2 ⟨hkey, hdiff⟩
  exact ⟨h.mem_unknowns.2 hT, t, ht, hshape, place, by rwa [(h.extents hT).1]⟩

/-- Tangent vectors that fit the template fit the store. -/
theorem TangentTo.fits (h : g.TangentTo s) {d : Vectors C α} (hd : d.Fits g.unknowns) :
    d.Fits s.tangents := by
  intro key hkey
  cases key with
  | group k => cases (Store.mem_tangents.1 hkey).2
  | type T =>
    have := hd _ (h.mem_unknowns.2 hkey)
    rwa [(h.extents hkey).1, (h.extents hkey).2] at this

theorem TangentTo.fits_unknowns (h : g.TangentTo s) {d : Vectors C α} (hd : d.Fits s.tangents) :
    d.Fits g.unknowns := by
  intro key hkey
  have hkey := h.mem_unknowns.1 hkey
  cases key with
  | group k => cases (Store.mem_tangents.1 hkey).2
  | type T =>
    rw [(h.extents hkey).1, (h.extents hkey).2]
    exact hd _ hkey

theorem TangentTo.within (h : g.TangentTo s) {d : Vectors C α} (hd : d.Within g.unknowns) :
    d.Within s.tangents :=
  ⟨h.fits hd.fits, fun key hkey => hd.outside key (mt h.mem_unknowns.1 hkey)⟩

/-- The unknowns are the coordinates of the tangent vectors of the store. -/
theorem TangentTo.mem_cells (h : g.TangentTo s) {u : Key C × Nat} (hu : u ∈ s.tangents.cells) :
    u ∈ g.unknowns.cells := by
  obtain ⟨hkey, hk⟩ := Layout.mem_cells.1 hu
  obtain ⟨key, k⟩ := u
  cases key with
  | group group => cases (Store.mem_tangents.1 hkey).2
  | type T =>
    refine Layout.mem_cells.2 ⟨h.mem_unknowns.2 hkey, ?_⟩
    rw [Layout.size, (h.extents hkey).1, (h.extents hkey).2]
    exact hk

end LinearGraph

/-! ## Graphs -/

namespace FactorGraph

variable {C α : Type} [DecidableEq C] [FactorFamily C] [LinearOrder α] [ExactScalar α]
  {graph : FactorGraph C α} {linear : LinearGraph C α} {s : Store C α}

/-- Every group holds factors of one class, and those that have residuals are proper. -/
def Proper (graph : FactorGraph C α) (L : Layout C) : Prop :=
  ∀ key b, graph.buffers.get? key = some b →
    ∃ f, b.content = some (.factors f.kind) ∧ b.stack = some (.factors f) ∧
      (f.kind.hasResidual = true → ∃ n, f.Proper L n)

/-- The linear factors of a buffer approximate the factors of another one by one. -/
def Linearizes (s : Store C α) (T : Layout C) (b c : Buffer C α) : Prop :=
  ∃ f F n m, b.factors = .ok f ∧ c.factors = .ok F ∧
    f.rows = .ok ((List.range n).map f.row) ∧ 0 < n ∧ F.Linear T n m ∧
    f.RowsApproximate s.bulk n F

/-- What a buffer of a graph becomes when the graph is linearised. -/
def BecomesLinear (s : Store C α) (T : Layout C) (b : Buffer C α) : Option (Buffer C α) → Prop
  | none => b.hasResiduals = false
  | some c => b.hasResiduals = true ∧ Linearizes s T b c

/-- Group by group, the factors that have residuals become linear. -/
theorem Proper.linearize (hs : s.WellFormed) (hg : graph.Proper s.layout)
    (h : graph.linearize s = .ok linear) : linear.TangentTo s ∧
      ∃ image, linear.buffers.entries = Table.images image graph.buffers.entries ∧
        ∀ e ∈ graph.buffers.entries, BecomesLinear s linear.unknowns e.2 (image e.1 e.2) := by
  obtain ⟨buffers, hbuffers, h⟩ := Checked.bind_eq_ok h
  obtain ⟨z, hz, h⟩ := Checked.bind_eq_ok h
  cases h
  have htangent : LinearGraph.TangentTo ⟨buffers, z⟩ s := ⟨hs, hz⟩
  obtain ⟨image, himage, hentries⟩ := Table.exists_images hbuffers
  refine ⟨htangent, image, hentries, fun e he => ?_⟩
  obtain ⟨f, hcontent, hstack, hproper⟩ := hg e.1 e.2 (Table.get?_eq_some_iff.2 he)
  have hfactors : e.2.factors = .ok f := by
    rw [Buffer.factors, hcontent, hstack]
  have hresiduals : e.2.hasResiduals = f.kind.hasResidual := by
    rw [Buffer.hasResiduals, hcontent]
  have hstep := himage e he
  cases hresidual : f.kind.hasResidual with
  | false =>
    simp only [hresiduals, hresidual, Bool.false_eq_true, if_false] at hstep
    rw [← Except.ok.inj hstep]
    exact hresiduals.trans hresidual
  | true =>
    simp only [hresiduals, hresidual, if_true, hfactors, Checked.ok_bind] at hstep
    obtain ⟨F, hF, hstep⟩ := Checked.bind_eq_ok hstep
    rw [← Except.ok.inj hstep]
    obtain ⟨n, hf⟩ := hproper hresidual
    obtain ⟨hn, ⟨m, hlinear⟩, happrox⟩ := hf.linearized hs hresidual
      (fun a ha hdiff => htangent.points ha hdiff) hF
    exact ⟨hresiduals.trans hresidual, f, F, n, m, hfactors, rfl, hf.rows, hn, hlinear, happrox⟩

theorem Proper.wellFormed (hs : s.WellFormed) (hg : graph.Proper s.layout)
    (h : graph.linearize s = .ok linear) : linear.WellFormed := by
  obtain ⟨htangent, image, hentries, himage⟩ := hg.linearize hs h
  refine ⟨fun key b hb => ?_, fun key b hb => ?_⟩
  · obtain ⟨T, rfl, -, -, rfl⟩ := htangent.get? hb
    exact .inr ⟨T, s.layout.rows (.type T), _, rfl, ⟨rfl, rfl⟩, rfl, fun k hk =>
      (Tensor.entry_generate hk).trans Scalar.zero_eq⟩
  · have hmem := Table.get?_eq_some_iff.1 hb
    rw [hentries] at hmem
    obtain ⟨old, hold, hsome⟩ := Table.mem_of_mem_images hmem
    have hbecomes := himage _ hold
    rw [show image key old = some b from hsome] at hbecomes
    obtain ⟨-, f, F, n, m, -, hF, -, hn, hlinear, -⟩ := hbecomes
    exact ⟨F, n, m, hF, hn, hlinear⟩

/-! ## Residuals and gradients -/

theorem foldlM_images {K V W γ : Type} {image : K → V → Option W} {F : γ → K × V → Checked γ}
    {G : γ → K × W → Checked γ} {entries : List (K × V)}
    (h : ∀ e ∈ entries, ∀ out, match image e.1 e.2 with
      | none => F out e = .ok out
      | some w => F out e = G out (e.1, w)) (out : γ) :
    entries.foldlM F out = (Table.images image entries).foldlM G out := by
  induction entries generalizing out with
  | nil => rfl
  | cons e entries ih =>
    have hrest := ih fun e' he' => h e' (by simp [he'])
    have hhead := h e (by simp) out
    rw [List.foldlM_cons, Table.images, List.filterMap_cons]
    cases hw : image e.1 e.2 with
    | none =>
      rw [hw] at hhead
      rw [hhead]
      exact hrest out
    | some w =>
      rw [hw] at hhead
      rw [hhead]
      exact bind_congr fun next => hrest next

omit [FactorFamily C] in
/-- Vectors that hold the negated constants of a linear graph hold those of each of its groups. -/
theorem holds_of_constants (hlinear : linear.WellFormed) {key : Key C} {c : Buffer C α}
    {F : FactorStack C α} {n m : Nat} (hc : linear.buffers.get? key = some c) (hF : c.factors = .ok F)
    (hFlinear : F.Linear linear.unknowns n m) {y : Vectors C α} (hy : y.Fills linear.equations)
    (hcoordinate : ∀ e ∈ linear.equations.cells, y.coordinate e = -linear.constant e) :
    ∃ t, (y.buffer key).Holds key t ∧ t.IsMatrix n m fun i j => -F.offset i j := by
  obtain ⟨hstack, -, hstacklinear⟩ := hlinear.linear hc
  obtain rfl := Except.ok.inj (hF.symm.trans hstack)
  have hkey : key ∈ linear.equations.keys := List.mem_toFinset.2 (Table.mem_keys_iff.2 ⟨c, hc⟩)
  obtain ⟨t, ht, hshape⟩ := hy.holds key hkey
  have hcount : linear.equations.rows key = n :=
    Except.ok.inj (hstacklinear.count_eq.symm.trans hFlinear.count_eq)
  have hwidth : linear.equations.width key = m :=
    hstacklinear.residualDim_eq.symm.trans hFlinear.residualDim_eq
  rw [hcount, hwidth] at hshape
  refine ⟨t, ht, hshape, fun i hi j hj => ?_⟩
  have hcell : i * m + j < t.shape.volume := by
    rw [hshape, Shape.volume_matrix]
    exact Shape.cell_lt hi hj
  have hmem : (key, i * m + j) ∈ linear.equations.cells := Layout.mem_cells.2 ⟨hkey, by
    rw [Layout.size, hcount, hwidth]
    exact Shape.cell_lt hi hj⟩
  rw [← ht.coordinate hcell]
  refine (hcoordinate _ hmem).trans (congrArg Neg.neg ?_)
  rw [LinearGraph.constant]
  simp only [hwidth, Shape.cell_div hj, Shape.cell_mod hj]

/-- The gradient of one group is the adjoint of its linear factors, applied to their residuals at
zero. -/
theorem gradient_group (hlinear : linear.WellFormed) {key : Key C} {b c : Buffer C α}
    (hc : linear.buffers.get? key = some c) (h : Linearizes s linear.unknowns b c) {y : Vectors C α}
    (hy : y.Fills linear.equations)
    (hcoordinate : ∀ e ∈ linear.equations.cells, y.coordinate e = -linear.constant e)
    (out : Vectors C α) :
    (b.factors >>= fun f => f.stackGradient s.bulk out) =
      c.factors >>= fun F => (y.buffer key).rows >>= fun t => F.stackAdjoint t out := by
  obtain ⟨f, F, n, m, hf, hF, hrows, hn, hFlinear, happrox⟩ := h
  obtain ⟨t, ht, hshape, hentry⟩ := holds_of_constants hlinear hc hF hFlinear hy hcoordinate
  have hyrows := Buffer.rows_of_stack ht.2
  rw [hf, hF, hyrows]
  exact Factor.stackGradient_eq_stackAdjoint hrows hFlinear happrox hshape hentry out

/-- The gradient is the adjoint of the linear graph, applied to its residuals at zero. -/
theorem Proper.gradient_eq_adjoint (hs : s.WellFormed) (hg : graph.Proper s.layout)
    (h : graph.linearize s = .ok linear) {y : Vectors C α} (hy : y.Fills linear.equations)
    (hcoordinate : ∀ e ∈ linear.equations.cells, y.coordinate e = -linear.constant e) :
    graph.gradient s = linear.adjoint y.buffers := by
  have hlinear := hg.wellFormed hs h
  obtain ⟨htangent, image, hentries, himage⟩ := hg.linearize hs h
  unfold gradient LinearGraph.adjoint
  rw [htangent.template, Checked.ok_bind, hentries]
  refine foldlM_images (fun e he out => ?_) _
  have hbecomes := himage e he
  cases hc : image e.1 e.2 with
  | none =>
    rw [hc] at hbecomes
    have hbecomes : e.2.hasResiduals = false := hbecomes
    simp only [hbecomes]
    rfl
  | some c =>
    rw [hc] at hbecomes
    obtain ⟨hresiduals, hlinearizes⟩ := hbecomes
    have hget : linear.buffers.get? e.1 = some c := (Table.get?_images hentries he).trans hc
    have hempty : (y.buffers.buffer e.1).isEmpty = false := by
      obtain ⟨t, ht, -⟩ := hy.holds e.1 (List.mem_toFinset.2 (Table.mem_keys_iff.2 ⟨c, hget⟩))
      exact ht.isEmpty
    simp only [hresiduals, hempty, if_true]
    exact gradient_group hlinear hget hlinearizes hy hcoordinate out

/-- The residuals of the linear graph at zero. -/
theorem residuals_template (hlinear : linear.WellFormed) :
    ∃ y, linear.residuals linear.template.bulk = .ok y ∧ y.Fills linear.equations ∧
      ∀ e ∈ linear.equations.cells, y.coordinate e = -linear.constant e := by
  obtain ⟨y, hy, hfills, hcoordinate⟩ :=
    hlinear.residuals hlinear.template_fills.within.fits
  refine ⟨y, hy, hfills, fun e he => ?_⟩
  rw [hcoordinate e he, Finset.sum_eq_zero, zero_sub]
  intro u hu
  rw [hlinear.template_zero hu, mul_zero]

open Matrix in
/-- The gradient, told by the matrix and the constants of the linear graph. -/
theorem Proper.gradient (hs : s.WellFormed) (hg : graph.Proper s.layout)
    (h : graph.linearize s = .ok linear) :
    ∃ G, graph.gradient s = .ok G ∧
      G.Represents linear.unknowns (-(linear.matrixᵀ *ᵥ linear.rhs)) := by
  have hlinear := hg.wellFormed hs h
  obtain ⟨y, -, hfills, hcoordinate⟩ := residuals_template hlinear
  obtain ⟨G, hG, hrep⟩ := hlinear.adjoint_represents (f := -linear.rhs)
    (hfills.represents fun e he => hcoordinate e he)
  rw [mulVec_neg] at hrep
  exact ⟨G, (hg.gradient_eq_adjoint hs h hfills hcoordinate).trans hG, hrep⟩

end FactorGraph

end LeastSquares
