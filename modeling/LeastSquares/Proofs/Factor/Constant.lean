import LeastSquares.Proofs.Factor.Plain
import LeastSquares.Proofs.Graph.Linearize

/-!
# The constant of a linearised factor

A factor is linearised where its variables stand, which is where a motion along zero leads. So the
constant of what it becomes is its residual there, negated: of a factor that is differentiated, because
tracing does not change values and its differentiable part has the same residual; of one that gives its
transpose, because it says so.
-/

namespace LeastSquares

/-! ## Standing values -/

section Values

variable {α : Type} [LinearOrder α] [ExactScalar α]

/-- A value that is moved along the zero vector stays. -/
theorem VariableType.retract_still (hα : ExactAngle α) {t : VariableType}
    (ht : t.isDifferentiable = true) {x : Value α} (hx : x.IsReal t.shapes) (start : Nat)
    {y : Value (Traced α)}
    (hy : t.retract x.still (.ofBlock (displacement t.tangentDim start)) = .ok y) : y.plain = x := by
  have heuclidean : t.isEuclidean = true → y.plain = x := by
    intro ht
    obtain ⟨y', hy', hreal, hlength, hlength', hcoordinate⟩ :=
      Factor.retract_movesTo (p := (t, start)) (x := ⟨x, .clamped⟩) ht hx
    obtain rfl := Except.ok.inj (hy.symm.trans hy')
    obtain ⟨hplain, hcells⟩ := hreal.mapReals Traced.value
    refine hplain.eq_of_cells hx (hcells.trans (List.ext_getElem (by simp_all) fun c hc hc' => ?_))
    have hget := (hcoordinate c (hlength' ▸ hc')).1
    rw [Value.coordinate, Value.coordinate, List.getD_eq_getElem _ _ hc',
      List.getD_eq_getElem _ _ (by simpa using hc)] at hget
    rw [List.getElem_map, hget]
  cases t with
  | lie g =>
    obtain ⟨a, rfl, ha⟩ : ∃ a, x = .ofGroup g a ∧ a.shape = [g.paramDim] := hx.group
    have hmoved : fitting ((g.moved? (a.map Traced.const) (.generate [g.tangentDim] fun j =>
        .input (start + j) Scalar.zero)).map (Value.ofGroup g)) = .ok y := hy
    obtain ⟨u, hu, rfl⟩ := Option.map_eq_some_iff.1 (fitting_eq_ok hmoved)
    have hplain := g.moved?_plain (a.map Traced.const) (.generate [g.tangentDim] fun j =>
      .input (start + j) Scalar.zero)
    have hstill : (a.map Traced.const).plain = a := Block.reals.inj (Block.plain_still (.reals a))
    rw [hu, hstill, LieGroup.moved?_zero hα g ha rfl] at hplain
    · exact congrArg (Value.ofGroup g) (Option.some.inj hplain).symm
    · intro k hk
      rw [Tensor.plain_generate, Tensor.entry_generate (by simpa using hk)]
      exact Scalar.zero_eq
  | discrete => cases ht
  | real => exact heuclidean rfl
  | euclidean => exact heuclidean rfl

/-- The values are those that are read for a stack: of variables with tangent spaces, elements of their
types. -/
def Placed (types : List VariableType) (values : List (Found α)) : Prop :=
  List.Forall₂ (fun t x => t.isDifferentiable = true → x.value.IsReal t.shapes ∧ x.access = .clamped)
    types values

end Values

namespace Factor

section Single

variable {C ι α : Type} [FactorFamily C] [LinearOrder α] [ExactScalar α]
  {f g : Factor C ι (Block α)} {values : List (Found α)}

omit [FactorFamily C] in
/-- The values moved along the inputs are where they were. -/
theorem movingValues_plain (hα : ExactAngle α) (hvalues : Placed f.types values)
    (hdiff : ∀ t ∈ f.types, t.isDifferentiable = true) {moving : List (Found (Traced α))}
    (h : f.movingValues values = .ok moving) : moving.map Found.plain = values := by
  rw [← map_fst_inputs, Placed, List.forall₂_map_left_iff] at hvalues
  have hmoved : List.Forall₂ (fun q y => q.2 = Found.plain y) (f.inputs.zip values) moving := by
    have hboth := (List.forall₂_and_left (p := (· ∈ f.inputs.zip values)) _ _).2
      ⟨fun _ hq => hq, Checked.forall₂_of_mapM h⟩
    refine hboth.imp fun ⟨p, value, access⟩ y ⟨hq, hy⟩ => ?_
    have hp : p.1.isDifferentiable = true := by
      refine hdiff _ ?_
      rw [← map_fst_inputs]
      exact List.mem_map_of_mem (List.of_mem_zip hq).1
    obtain ⟨hreal, haccess⟩ := (List.forall₂_iff_zip.1 hvalues).2 hq hp
    obtain ⟨v, hv, hy⟩ := Checked.bind_eq_ok hy
    cases hy
    obtain rfl : access = .clamped := haccess
    exact congrArg (Found.mk · Access.clamped) (VariableType.retract_still hα hp hreal _ hv).symm
  have hsame : (f.inputs.zip values).map Prod.snd = moving.map Found.plain := by
    rw [← List.forall₂_eq_eq_eq, List.forall₂_map_left_iff, List.forall₂_map_right_iff]
    exact hmoved
  rw [← hsame, List.map_snd_zip hvalues.length_eq.ge]

/-! ## The differentiable part -/

/-- The part of a factor that is linearised connects some of its variables and has its residual. Over
traced numbers it is computed as over their values. -/
def KeepsResidual (f : Factor C ι (Block α)) : Prop :=
  ∀ values part ws, Placed f.types values → f.component values = .ok (part, ws) →
    List.Forall₂ (fun a w => (a, w) ∈ f.handles.zip values) part.handles ws ∧
      part.residual ws = f.residual values ∧ part.Traceable

theorem keepsResidual_of_ownPart (hown : OwnPart f.kind) (hrank : f.kind.rank ≠ .scalar)
    (htraceable : f.Traceable) : f.KeepsResidual := by
  intro values part ws hplaced h
  rw [component_eq hown hrank] at h
  obtain ⟨_, -, hpair⟩ := Checked.bind_eq_ok h
  cases hpair
  exact ⟨List.forall₂_iff_zip.2 ⟨by simpa [types] using hplaced.length_eq, id⟩, rfl, htraceable⟩

/-- A relative motion that a label chooses is one between its two ends. -/
theorem keepsResidual_switching (hkind : f.kind = .switchingBetween) : f.KeepsResidual := by
  rintro values part ws - h
  obtain ⟨kind, handles, fields⟩ := f
  obtain rfl := hkind
  replace h : chosenBetween ⟨.switchingBetween, handles, fields⟩ values = .ok (part, ws) := h
  have hresidual : (⟨.switchingBetween, handles, fields⟩ : Factor C ι (Block α)).residual values =
      part.betweenError ws := by
    show (chosenBetween _ values >>= fun p => p.1.betweenError p.2) = _
    rw [h, Checked.ok_bind]
  unfold chosenBetween at h
  split at h
  next start label stop movements noise a l b hhandles _ =>
    obtain rfl : handles = [start, label, stop] := hhandles
    obtain ⟨array, -, h⟩ := Checked.bind_eq_ok h
    obtain ⟨movement, -, h⟩ := Checked.bind_eq_ok h
    cases h
    exact ⟨.cons (by simp) (.cons (by simp) .nil), hresidual.symm,
      traceable_of_library (by simp) (by simp)⟩
  next => cases h

/-! ## One linearised factor -/

/-- The residual of a factor is the negated constant of an explicit Jacobian. -/
def Reproduces (f : Factor C ι (Block α)) (values : List (Found α)) (g : Factor C ι (Block α)) : Prop :=
  ∃ m handles blocks error r, g = ofJacobian handles blocks error ∧ error.shape = [m] ∧
    f.residual values = .ok r ∧ r.shape = [m] ∧ ∀ j, j < m → error.entry j = -r.toReals.entry j

theorem linearizing_reproduces (hα : ExactAngle α) (htraceable : f.Traceable)
    (hvalues : Placed f.types values) (hdiff : ∀ t ∈ f.types, t.isDifferentiable = true)
    (h : f.linearizing values = .ok g) : f.Reproduces values g := by
  obtain ⟨moving, hmoving, hrest⟩ := Checked.bind_eq_ok h
  obtain ⟨R, hR, hrest⟩ := Checked.bind_eq_ok hrest
  obtain ⟨m, hm⟩ : ∃ m, R.shape = [m] := by
    split at hrest
    next m hm => exact ⟨m, hm⟩
    next => cases hrest
  have hresidual := htraceable hR
  rw [movingValues_plain hα hvalues hdiff hmoving] at hresidual
  obtain rfl := Except.ok.inj (h.symm.trans (linearizing_eq hmoving hR hm))
  refine ⟨m, _, _, _, R.plain, rfl, rfl, hresidual, by rwa [Block.shape_plain], fun j hj => ?_⟩
  rw [Tensor.entry_generate (by simpa using hj), Block.toReals_plain, Tensor.entry_plain]

/-- A factor that is linearised by differentiation. -/
theorem reproduces_of_vector (hα : ExactAngle α) (hrank : f.kind.rank = .vector)
    (hkeeps : f.KeepsResidual) (hparted : f.Parted) (hvalues : Placed f.types values)
    (h : f.linearized values = .ok g) : f.Reproduces values g := by
  unfold linearized at h
  rw [hrank] at h
  obtain ⟨⟨part, ws⟩, hpart, h⟩ := Checked.bind_eq_ok h
  obtain ⟨hmem, hresidual, htraceable⟩ := hkeeps values part ws hvalues hpart
  have hdiff : ∀ t ∈ part.types, t.isDifferentiable = true :=
    List.forall_mem_map.2 fun a ha => ((hparted values part ws hpart).2 a ha).2
  rw [Placed, types, List.forall₂_map_left_iff] at hvalues
  have hplaced : Placed part.types ws := List.forall₂_map_left_iff.2
    (hmem.imp fun a w haw => (List.forall₂_iff_zip.1 hvalues).2 haw)
  obtain ⟨m, handles, blocks, error, r, hg, herror, hr, hshape, hentry⟩ :=
    linearizing_reproduces hα htraceable hplaced hdiff h
  exact ⟨m, handles, blocks, error, r, hg, herror, hresidual ▸ hr, hshape, hentry⟩

/-- A factor that is linearised by the rows of its transpose. -/
theorem AffineBy.reproduces {m : Nat} {A : List (Nat → Nat → α)} {b : Nat → α}
    (haffine : f.AffineBy m A b) (hrank : f.kind.rank = .gaussian) (hvalues : Typed f.types values)
    (h : f.linearized values = .ok g) : f.Reproduces values g := by
  obtain ⟨r, hr, hshape, -⟩ := haffine.residual hvalues
  unfold linearized at h
  rw [hrank] at h
  obtain rfl := Except.ok.inj (h.symm.trans (haffine.linearizingAffine_eq hr hshape))
  refine ⟨m, _, _, _, .reals r, rfl, rfl, hr, hshape, fun j hj => ?_⟩
  rw [Tensor.entry_generate (by simpa using hj)]
  rfl

end Single

/-! ## Stacks -/

section Stacks

variable {C α : Type} [DecidableEq C] [FactorFamily C] [LinearOrder α] [ExactScalar α]
  {F G : FactorStack C α} {L T : Layout C} {s : Store C α} {read : Reader α} {n m i : Nat}

omit [FactorFamily C] in
/-- What a factor of a stack reads in a store. -/
theorem placed_values (hs : s.WellFormed) (haddressed : ∀ a ∈ F.handles, a.Addresses s.layout n)
    (hi : i < n) {values : List (Found α)} (h : (F.row i).values s.bulk = .ok values) :
    Placed (F.row i).types values := by
  have hreads := (List.forall₂_and_left (p := fun a => a ∈ (F.row i).handles) _ _).2
    ⟨fun _ ha => ha, Checked.forall₂_of_mapM h⟩
  refine List.forall₂_map_left_iff.2 (hreads.imp fun a x ⟨ha, hx⟩ hdiff => ?_)
  obtain ⟨b, hb, rfl⟩ := List.mem_map.1 ha
  obtain ⟨place, -, hread⟩ := read_of_points hs ((haddressed b hb).points hi)
  obtain rfl := Except.ok.inj (hread.symm.trans hx)
  exact ⟨(hs.stores (haddressed b hb).1).row_isReal hdiff place, rfl⟩

/-- The classes of the client in a stack that are linearised by differentiation keep their residuals.
Those of the library do so anyway. -/
def Honest (n : Nat) (F : FactorStack C α) : Prop :=
  ∀ c, F.kind = .client c → FactorFamily.rank c = .vector → ∀ i, i < n → (F.row i).KeepsResidual

omit [DecidableEq C] in
theorem Honest.keepsResidual (h : F.Honest n) (hrank : F.kind.rank = .vector) (hi : i < n) :
    (F.row i).KeepsResidual := by
  have hlibrary : (∀ c, F.kind ≠ .client c) → F.kind ≠ .switchingBetween →
      (F.row i).KeepsResidual := fun hclient hlabel =>
    keepsResidual_of_ownPart (f := F.row i) ⟨hlabel, fun c hc => absurd hc (hclient c)⟩
      (by rw [show (F.row i).kind.rank = .vector from hrank]; simp)
      (traceable_of_library (f := F.row i) hclient hlabel)
  cases hk : F.kind with
  | client c =>
    rw [hk] at hrank
    exact h c hk hrank i hi
  | switchingBetween => exact keepsResidual_switching hk
  | _ => exact hlibrary (by rw [hk]; nofun) (by rw [hk]; nofun)

/-- What a factor of a proper stack becomes reproduces its residual. -/
theorem Proper.reproduces (hα : ExactAngle α) (hs : s.WellFormed) (h : F.Proper s.layout n)
    (hhonest : F.Honest n) (hresidual : F.kind.hasResidual = true) (hi : i < n)
    {values : List (Found α)} {g : FactorStack C α} (hvalues : (F.row i).values s.bulk = .ok values)
    (hg : (F.row i).linearized values = .ok g) : (F.row i).Reproduces values g := by
  have hplaced := placed_values hs h.addressed hi hvalues
  cases hrank : F.kind.rank with
  | scalar => simp [FactorClass.hasResidual, hrank] at hresidual
  | vector =>
    exact reproduces_of_vector hα hrank (hhonest.keepsResidual hrank hi)
      (h.lawful.parted hresidual h.connected hi) hplaced hg
  | gaussian =>
    obtain ⟨-, m, A, b, haffine⟩ := h.lawful.affine hrank hi
    have heuclidean : ∀ t ∈ F.types, t.isEuclidean = true := by
      rw [← types_row F i]
      exact haffine.euclidean
    exact haffine.reproduces hrank (typed_values hs h.addressed heuclidean hi hvalues) hg

omit [DecidableEq C] in
/-- The residuals of a stack are the negated constants of a linear stack. -/
theorem stackResiduals_of_reproduces (hrows : F.rows = .ok ((List.range n).map F.row)) (hn : 0 < n)
    (hG : G.Linear T n m)
    (h : ∀ i, i < n → ∃ values, (F.row i).values read = .ok values ∧
      (F.row i).Reproduces values (G.row i)) :
    ∃ b, F.stackResiduals read = .ok b ∧
      b.toReals.IsMatrix n m fun i j => -G.offset i j := by
  obtain ⟨rs, hrs, hspec⟩ := Checked.mapM_forall₂ (l := List.range n)
    (f := fun i => do residual (F.row i) (← (F.row i).values read))
    (P := fun i r => r.shape = [m] ∧ ∀ j, j < m → r.toReals.entry j = -G.offset i j) (by
      intro i hi
      obtain ⟨values, hvalues, m', handles, blocks, error, r, hg, herror, hr, hshape, hentry⟩ :=
        h i (List.mem_range.1 hi)
      obtain ⟨rfl, hoffset⟩ := hG.row_ofJacobian hg herror
      refine ⟨r, by rw [hvalues, Checked.ok_bind, hr], hshape, fun j hj => ?_⟩
      rw [hoffset, hentry j hj, neg_neg])
  have hlength : rs.length = n := by rw [← hspec.length_eq, List.length_range]
  have hrow : ∀ i (hi : i < rs.length), (rs[i]).shape = [m] ∧
      ∀ j, j < m → (rs[i]).toReals.entry j = -G.offset i j := by
    intro i hi
    simpa using hspec.get (i := i) (by simpa [hlength] using hi) hi
  obtain ⟨b, hb, hshape, hrows'⟩ := Block.stack?_numbers (s := [m])
    (List.length_pos_iff.1 (hlength ▸ hn)) fun r hr => by
      obtain ⟨i, hi, rfl⟩ := List.getElem_of_mem hr
      exact (hrow i hi).1
  rw [hlength] at hshape
  refine ⟨b, ?_, by rw [Block.shape_toReals, hshape], fun i hi j hj => ?_⟩
  · unfold stackResiduals overRows
    rw [hrows, Checked.ok_bind, List.mapM_map]
    refine (congrArg (· >>= fun rs => fitting (Block.stack? rs)) hrs).trans ?_
    rw [Checked.ok_bind, hb, fitting_some]
  · rw [← Block.entry_toReals_matrix_row hshape hi hj, hrows' i (hlength ▸ hi),
      (hrow i (hlength ▸ hi)).2 j hj]

end Stacks

end Factor

end LeastSquares
