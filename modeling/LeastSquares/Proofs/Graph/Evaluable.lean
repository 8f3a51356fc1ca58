import LeastSquares.Proofs.Graph.Exactness

/-!
# Graphs that can be evaluated

A graph is evaluable if the residuals of its factors evaluate on all values of their variable types, over
numbers as over traced numbers, with as many coordinates for all factors of a group. Its error, its
gradient and its linearisation are then found at every store with values of these types under the same
keys; and a store stays one when it is moved.
-/

namespace LeastSquares

/-! ## Values of the variable types -/

section Values

variable {α : Type}

/-- The arrays of a value of the type: labels are whole numbers, everything else is real. -/
def VariableType.form (t : VariableType) : Tree (Kind × Shape) :=
  t.shapes.map fun s => (if t.isDifferentiable then .real else .int, s)

theorem VariableType.isReal_iff {t : VariableType} (ht : t.isDifferentiable = true) {v : Value α} :
    v.IsReal t.shapes ↔ v.form = t.form := by
  rw [Value.IsReal, form, ht]
  rfl

/-- Values of the variables of a factor, as it reads them in a stack. -/
def Admitted (types : List VariableType) (values : List (Found α)) : Prop :=
  List.Forall₂ (fun t x => x.value.form = t.form ∧ x.access = .clamped) types values

theorem Admitted.typed {types : List VariableType} {values : List (Found α)}
    (h : Admitted types values) (hdiff : ∀ t ∈ types, t.isDifferentiable = true) :
    Typed types values :=
  List.Forall₂.imp (fun _ _ hx => (VariableType.isReal_iff (hdiff _ hx.1)).2 hx.2.1)
    ((List.forall₂_and_left (p := (· ∈ types)) _ _).2 ⟨fun _ ht => ht, h⟩)

end Values

namespace Store

variable {C α : Type} [DecidableEq C] [LinearOrder α] [ExactScalar α]
  {L : Layout C} {s s' : Store C α}

/-- A well-formed store with this layout, whose values without tangent vectors are of their types. -/
structure Ready (L : Layout C) (s : Store C α) : Prop where
  wellFormed : s.WellFormed
  layout : s.layout = L
  labelled : ∀ T, Key.type T ∈ L.keys → T.isDifferentiable = false →
    ∀ place, place < L.rows (.type T) → ((s.valuesOf T).row place).form = T.form

/-- Values without tangent vectors stay where they are. -/
theorem valuesOf_moved {d : Vectors C α} (h : s.moved d.buffers = .ok s') {T : VariableType}
    (hT : T.isDifferentiable = false) : s'.valuesOf T = s.valuesOf T := by
  rw [valuesOf, valuesOf, buffer_moved h (show Key.isDifferentiable (.type T) = false from hT)]

theorem Ready.moved (h : s.Ready L) {d : Vectors C α} (hd : d.Within s.tangents) :
    ∃ s', s.moved d.buffers = .ok s' ∧ s'.Ready L := by
  obtain ⟨s', hs'⟩ := h.wellFormed.exists_moved hd
  obtain ⟨hwell, hlayout⟩ := h.wellFormed.moved hd.fits hs'
  refine ⟨s', hs', hwell, hlayout.trans h.layout, fun T hT hlabel place hplace => ?_⟩
  rw [valuesOf_moved hs' hlabel]
  exact h.labelled T hT hlabel place hplace

/-- A factor reads values of the types of its variables. -/
theorem Ready.values [FactorFamily C] (h : s.Ready L) {f : FactorStack C α}
    (hpoints : ∀ a ∈ f.handles, a.Points L) :
    ∃ values, f.values s.bulk = .ok values ∧ Admitted f.types values := by
  obtain ⟨values, hvalues, hadmitted⟩ := Checked.mapM_forall₂ (l := f.handles)
    (f := fun a => s.bulk a.inStack) (P := fun a x => x.value.form = a.type.form ∧ x.access = .clamped)
    (by
      intro a ha
      have hpoint : a.Points s.layout := h.layout ▸ hpoints a ha
      obtain ⟨place, hplace, hread⟩ := Factor.read_of_points h.wellFormed hpoint
      refine ⟨_, hread, ?_, rfl⟩
      cases hdiff : a.type.isDifferentiable with
      | true =>
        exact (VariableType.isReal_iff hdiff).1
          ((h.wellFormed.stores hpoint.1).row_isReal hdiff place)
      | false => exact h.labelled _ (hpoints a ha).1 hdiff place (h.layout ▸ hplace))
  exact ⟨values, hvalues, List.forall₂_map_left_iff.2 hadmitted⟩

end Store

/-! ## Stacks -/

namespace Factor

section Halves

variable {α : Type} [Scalar α]

theorem exists_halfSquaredNorm (r : Block α) : ∃ e, halfSquaredNorm r = .ok e := by
  obtain ⟨p, hp⟩ : ∃ p, r.mul? r = some p := by
    cases r with
    | _ t => exact ⟨_, by simp [Block.mul?, Block.arith?, Block.kind, Kind.join, Block.toBools,
        Block.toInts, Block.toReals, Tensor.zipWith?_of_shape_eq]; rfl⟩
  exact ⟨_, by rw [halfSquaredNorm, hp]; rfl⟩

end Halves

variable {C α : Type} [DecidableEq C] [FactorFamily C] [LinearOrder α] [ExactScalar α]
  {L : Layout C} {n : Nat} {f : FactorStack C α}
  {s : Store C α}

/-- The residual evaluates over traced numbers, with `m` coordinates. -/
def Traces {ι : Type} (f : Factor C ι (Block α)) (m : Nat) : Prop :=
  ∀ moving : List (Found (Traced α)), Typed f.types moving → (∀ x ∈ moving, x.access = .clamped) →
    ∃ R, f.still.residual moving = .ok R ∧ R.shape = [m]

/-- A stack of `n` factors that evaluate on all values of their variable types. Those with residuals
have residuals of one dimension, and are linearised, if by their derivatives, in parts of one kind. -/
structure Evaluates (L : Layout C) (n : Nat) (f : FactorStack C α) : Prop where
  rowCount : f.rowCount = .ok n
  positive : 0 < n
  addressed : ∀ a ∈ f.handles, a.Addresses L n
  inherited : stackRule? f.kind = none
  error : f.kind.rank = .scalar → ∀ i, i < n → ∀ values, Admitted f.types values →
    ∃ e, (f.row i).error values = .ok e
  residual : f.kind.rank ≠ .scalar → ∃ m, ∀ i, i < n → ∀ values, Admitted f.types values →
    ∃ r, (f.row i).residual values = .ok r ∧ r.shape = [m]
  part : f.kind.rank = .vector → ∃ types m, ∀ i, i < n → ∀ values, Admitted f.types values →
    ∃ part ws, (f.row i).component values = .ok (part, ws) ∧ part.types = types ∧
      Typed part.types ws ∧ part.Traces m

/-! ## Row by row -/

omit [DecidableEq C] in
theorem Evaluates.rows (h : f.Evaluates L n) : f.rows = .ok ((List.range n).map f.row) := by
  rw [Factor.rows, h.rowCount]
  rfl

/-- What each factor of a stack comes to, at the values that it reads. -/
theorem Evaluates.overRows (h : f.Evaluates L n) (hs : s.Ready L) {β : Type}
    {rule : FactorStack C α → List (Found α) → Checked β} {P : β → Prop}
    (hrule : ∀ i, i < n → ∀ values, Admitted f.types values →
      ∃ b, rule (f.row i) values = .ok b ∧ P b) :
    ∃ bs, f.overRows s.bulk rule = .ok bs ∧ bs ≠ [] ∧ ∀ b ∈ bs, P b := by
  obtain ⟨bs, hbs, hspec⟩ := Checked.mapM_forall₂ (l := List.range n)
    (f := fun i => do rule (f.row i) (← (f.row i).values s.bulk)) (P := fun _ b => P b) (by
      intro i hi
      have hi := List.mem_range.1 hi
      obtain ⟨values, hvalues, hadmitted⟩ := hs.values (f := f.row i) fun a ha => by
        obtain ⟨b, hb, rfl⟩ := List.mem_map.1 ha
        exact (h.addressed b hb).points hi
      rw [types_row] at hadmitted
      obtain ⟨b, hb, hP⟩ := hrule i hi values hadmitted
      exact ⟨b, by rw [hvalues, Checked.ok_bind, hb], hP⟩)
  refine ⟨bs, ?_, ?_, fun b hb => ?_⟩
  · unfold Factor.overRows
    rw [h.rows, Checked.ok_bind, List.mapM_map]
    exact hbs
  · rw [← List.length_pos_iff, ← hspec.length_eq, List.length_range]
    exact h.positive
  · obtain ⟨i, hi, rfl⟩ := List.getElem_of_mem hb
    exact hspec.get (hspec.length_eq ▸ hi) hi

/-! ## Errors -/

/-- The errors of the factors of a stack are found. -/
theorem Evaluates.stackError (h : f.Evaluates L n) (hs : s.Ready L) :
    ∃ e, f.stackError s.bulk = .ok e := by
  have herror : ∀ i, i < n → ∀ values, Admitted f.types values →
      ∃ e, (f.row i).error values = .ok e ∧ True := by
    intro i hi values hvalues
    by_cases hrank : f.kind.rank = .scalar
    · exact (h.error hrank i hi values hvalues).imp fun _ he => ⟨he, trivial⟩
    · obtain ⟨m, hresidual⟩ := h.residual hrank
      obtain ⟨r, hr, -⟩ := hresidual i hi values hvalues
      obtain ⟨e, he⟩ := exists_halfSquaredNorm r
      exact ⟨e, (error_of_residual hr).trans he, trivial⟩
  obtain ⟨es, hes, -⟩ := h.overRows hs herror
  refine ⟨(es.map fun e => e.sum.value).foldl (· + ·) Scalar.zero, ?_⟩
  unfold Factor.stackError stackErrors
  rw [hes]
  rfl

/-! ## Linearising -/

omit [DecidableEq C] [FactorFamily C] in
/-- The variables of a factor are moved along their inputs. -/
theorem exists_movingValues {g : FactorStack C α} {values : List (Found α)}
    (hdiff : ∀ t ∈ g.types, t.isDifferentiable = true) (h : Typed g.types values) :
    ∃ moving, g.movingValues values = .ok moving ∧ Typed g.types moving ∧
      ∀ x ∈ moving, x.access = .clamped := by
  have hinputs : List.Forall₂ (fun p x => x.value.IsReal p.1.shapes) g.inputs values := by
    rwa [← map_fst_inputs, Typed, List.forall₂_map_left_iff] at h
  obtain ⟨moving, hmoving, hspec⟩ := Checked.mapM_forall₂ (l := g.inputs.zip values)
    (f := fun q => do
      let d := Value.ofBlock (displacement q.1.1.tangentDim q.1.2)
      return (⟨← q.1.1.retract q.2.value.still d, .clamped⟩ : Found (Traced α)))
    (P := fun q y => y.value.IsReal q.1.1.shapes ∧ y.access = .clamped) (by
      intro q hq
      have hreal : q.2.value.IsReal q.1.1.shapes := (List.forall₂_iff_zip.1 hinputs).2 hq
      have htype : q.1.1 ∈ g.types := by
        rw [← map_fst_inputs]
        exact List.mem_map_of_mem (List.of_mem_zip hq).1
      obtain ⟨y, hy, hyreal⟩ := VariableType.retract_real (hdiff _ htype)
        (hreal.mapReals Traced.const).1 (d := .generate [q.1.1.tangentDim] fun c =>
          .input (q.1.2 + c) Scalar.zero) rfl
      refine ⟨⟨y, .clamped⟩, ?_, hyreal, rfl⟩
      dsimp only
      rw [displacement]
      exact congrArg (fun x : Checked (Value (Traced α)) => x >>= fun y =>
        Except.ok (⟨y, .clamped⟩ : Found (Traced α))) hy)
  refine ⟨moving, hmoving, ?_, fun x hx => ?_⟩
  · have hzip : (g.inputs.zip values).map Prod.fst = g.inputs :=
      List.map_fst_zip (hinputs.length_eq).le
    rw [Typed, ← map_fst_inputs, List.forall₂_map_left_iff, ← hzip, List.forall₂_map_left_iff]
    exact hspec.imp fun _ _ h => h.1
  · obtain ⟨k, hk, rfl⟩ := List.getElem_of_mem hx
    exact (hspec.get (hspec.length_eq ▸ hk) hk).2

omit [DecidableEq C] in
/-- A part whose residual evaluates over traced numbers is linearised. -/
theorem Traces.exists_linearizing {g : FactorStack C α} {m : Nat} (h : g.Traces m)
    (hdiff : ∀ t ∈ g.types, t.isDifferentiable = true) {values : List (Found α)}
    (hvalues : Typed g.types values) (hpoints : ∀ a ∈ g.handles, a.Points L) :
    ∃ G, g.linearizing values = .ok G ∧ Explicit L g.types m G := by
  obtain ⟨moving, hmoving, htyped, haccess⟩ := exists_movingValues hdiff hvalues
  obtain ⟨R, hR, hm⟩ := h moving htyped haccess
  refine ⟨_, linearizing_eq hmoving hR hm, g.handles, _, _, rfl, rfl, ?_, rfl, hpoints⟩
  rw [List.forall₂_map_right_iff]
  exact g.forall₂_inputs.imp fun a p hp => by rw [← hp]; rfl

/-- A proper stack that evaluates is linearised. -/
theorem Evaluates.exists_stackLinearized (h : f.Evaluates L n) (hf : f.Proper L n)
    (hresidual : f.kind.hasResidual = true) (hs : s.Ready L) :
    ∃ F, f.stackLinearized s.bulk = .ok F := by
  have hrank : f.kind.rank ≠ .scalar := by simpa [FactorClass.hasResidual] using hresidual
  have hpoints : ∀ i, i < n → ∀ a ∈ (f.row i).handles, a.Points L := by
    intro i hi a ha
    obtain ⟨b, hb, rfl⟩ := List.mem_map.1 ha
    exact (h.addressed b hb).points hi
  obtain ⟨types, m, hrow⟩ : ∃ types m, ∀ i, i < n → ∀ values, Admitted f.types values →
      ∃ g, (f.row i).linearized values = .ok g ∧ Explicit L types m g := by
    cases hk : f.kind.rank with
    | scalar => exact absurd hk hrank
    | vector =>
      obtain ⟨types, m, hpart⟩ := h.part hk
      refine ⟨types, m, fun i hi values hvalues => ?_⟩
      obtain ⟨part, ws, hcomponent, rfl, htyped, htraces⟩ := hpart i hi values hvalues
      obtain ⟨-, hmem⟩ := hf.lawful.parted hresidual hf.connected hi values part ws hcomponent
      obtain ⟨G, hG, hexplicit⟩ := htraces.exists_linearizing
        (List.forall_mem_map.2 fun a ha => (hmem a ha).2) htyped
        fun a ha => hpoints i hi a (hmem a ha).1
      refine ⟨G, ?_, hexplicit⟩
      rw [linearized, show (f.row i).kind.rank = .vector from hk]
      dsimp only
      rw [hcomponent, Checked.ok_bind]
      exact hG
    | gaussian =>
      obtain ⟨m, hresiduals⟩ := h.residual hrank
      refine ⟨f.types, m, fun i hi values hvalues => ?_⟩
      obtain ⟨r, hr, hshape⟩ := hresiduals i hi values hvalues
      obtain ⟨hown, m', A, b, haffine⟩ := hf.lawful.affine hk hi
      have htyped : Typed (f.row i).types values :=
        Admitted.typed (types_row f i ▸ hvalues) fun t ht =>
          VariableType.isDifferentiable_of_isEuclidean (haffine.euclidean t ht)
      obtain ⟨r', hr', hshape', -⟩ := haffine.residual htyped
      obtain rfl := Except.ok.inj (hr.symm.trans hr')
      obtain rfl : m' = m := by simpa [Block.shape] using hshape'.symm.trans hshape
      have hlinearized : (f.row i).linearized values = (f.row i).linearizingAffine values := by
        rw [linearized, show (f.row i).kind.rank = .gaussian from hk]
      exact ⟨_, hlinearized.trans (haffine.linearizingAffine_eq hr hshape'), (f.row i).handles, _, _,
        rfl, types_row f i, forall₂_coefficientBlocks haffine.length, rfl, hpoints i hi⟩
  obtain ⟨gs, hgs, hne, hexplicit⟩ := h.overRows hs hrow
  obtain ⟨F, hF⟩ := exists_stack?_of_explicit hne hexplicit
  refine ⟨F, ?_⟩
  unfold stackLinearized
  rw [h.inherited]
  dsimp only
  rw [hgs, Checked.ok_bind, hF, fitting_some]

end Factor

/-! ## Graphs -/

namespace FactorGraph

variable {C α : Type} [DecidableEq C] [FactorFamily C] [LinearOrder α] [ExactScalar α]
  {L : Layout C} {graph : FactorGraph C α} {s : Store C α}

/-- Every group holds factors of one class that evaluate on all values of their variable types; those with
residuals are proper. -/
def Evaluable (L : Layout C) (graph : FactorGraph C α) : Prop :=
  ∀ key b, graph.buffers.get? key = some b → ∃ f n, b.content = some (.factors f.kind) ∧
    b.stack = some (.factors f) ∧ f.Evaluates L n ∧
    (f.kind.hasResidual = true → f.Proper L n)

theorem Evaluable.proper (h : graph.Evaluable L) : graph.Proper L := by
  intro key b hb
  obtain ⟨f, n, hcontent, hstack, -, hproper⟩ := h key b hb
  exact ⟨f, hcontent, hstack, fun hresidual => ⟨n, hproper hresidual⟩⟩

/-- What is known of a group. -/
theorem Evaluable.group (h : graph.Evaluable L) {e : Key C × Buffer C α}
    (he : e ∈ graph.buffers.entries) : ∃ f n, e.2.factors = .ok f ∧
      e.2.hasResiduals = f.kind.hasResidual ∧ e.2.count = .ok n ∧ f.Evaluates L n ∧
      (f.kind.hasResidual = true → f.Proper L n) := by
  obtain ⟨f, n, hcontent, hstack, heval, hproper⟩ := h e.1 e.2 (Table.get?_eq_some_iff.2 he)
  refine ⟨f, n, by rw [Buffer.factors, hcontent, hstack], by rw [Buffer.hasResiduals, hcontent], ?_,
    heval, hproper⟩
  obtain ⟨m, hm, hrest⟩ := Checked.bind_eq_ok heval.rowCount
  split at hrest
  next =>
    cases hrest
    rw [Buffer.count, hstack]
    exact hm
  next => cases hrest

/-- The error is found. -/
theorem Evaluable.error (h : graph.Evaluable L) (hs : s.Ready L) :
    ∃ e, graph.error s.bulk = .ok e := by
  obtain ⟨e, he, -⟩ := Checked.foldlM_induct (P := fun _ (_ : α) => True) (b := (Scalar.zero : α))
    trivial graph.buffers.entries (f := fun total e => do
      return total + (← (← e.2.factors).stackError s.bulk)) fun _ e total he _ => by
    obtain ⟨f, n, hf, -, -, heval, -⟩ := h.group he
    obtain ⟨x, hx⟩ := heval.stackError hs
    exact ⟨total + x, by rw [hf, Checked.ok_bind, hx]; rfl, trivial⟩
  exact ⟨e, he⟩

/-- The factors are counted. -/
theorem Evaluable.factorCount (h : graph.Evaluable L) : ∃ n, graph.factorCount = .ok n := by
  obtain ⟨n, hn, -⟩ := Checked.foldlM_induct (P := fun _ (_ : Nat) => True) (b := 0)
    trivial graph.buffers.entries (f := fun n e => do return n + (← e.2.count)) fun _ e n he _ => by
    obtain ⟨f, k, -, -, hcount, -⟩ := h.group he
    exact ⟨n + k, by rw [hcount]; rfl, trivial⟩
  exact ⟨n, hn⟩

/-- The graph is linearised. -/
theorem Evaluable.linearize (h : graph.Evaluable L) (hs : s.Ready L) :
    ∃ linear, graph.linearize s = .ok linear := by
  obtain ⟨z, hz, -⟩ := hs.wellFormed.tangentZeros
  obtain ⟨groups, hgroups⟩ : ∃ groups, graph.linearStacks s.bulk = .ok groups := by
    refine Table.exists_filterMapM fun e he => ?_
    obtain ⟨f, n, hf, hresiduals, -, heval, hproper⟩ := h.group he
    rw [hresiduals]
    cases hresidual : f.kind.hasResidual with
    | false => exact ⟨none, rfl⟩
    | true =>
      obtain ⟨F, hF⟩ := heval.exists_stackLinearized (hproper hresidual) hresidual hs
      exact ⟨_, by simp only [if_true, hf, Checked.ok_bind, hF]; rfl⟩
  refine ⟨⟨groups, z⟩, ?_⟩
  rw [FactorGraph.linearize, hgroups, Checked.ok_bind, hz]
  rfl

/-- The gradient is found, in the tangent vectors of the store. -/
theorem Evaluable.gradient (h : graph.Evaluable L) (hs : s.Ready L) :
    ∃ G, graph.gradient s = .ok G ∧ G.Within s.tangents := by
  obtain ⟨linear, hlinear⟩ := h.linearize hs
  have hproper : graph.Proper s.layout := hs.layout ▸ h.proper
  obtain ⟨G, hG, hrep⟩ := hproper.gradient hs.wellFormed hlinear
  exact ⟨G, hG, (hproper.linearize hs.wellFormed hlinear).1.within hrep.within⟩

end FactorGraph

end LeastSquares
