import LeastSquares.Proofs.Factor.RealForm
import LeastSquares.Proofs.Value.Wider

/-!
# Factors in wider kinds

In a stack a factor has its arrays in the widest of the kinds that stand in their places, and its
variables are read as on the device. Classes of the library compute the same numbers from these; and the
shape of a residual is told by the shapes of what it is computed from.
-/

namespace LeastSquares

/-- The value as it is read for a stack. -/
def Found.clamped {α : Type} (x : Found α) : Found α := ⟨x.value, .clamped⟩

namespace Factor

/-- The factor with its arrays in kinds as wide, whatever its indices are. -/
structure Wider {C ι κ α : Type} [Scalar α] (f : Factor C ι (Block α)) (g : Factor C κ (Block α)) : Prop where
  kind : g.kind = f.kind
  types : g.types = f.types
  fields : List.Forall₂ Value.Wider f.fields g.fields

/-! ## Residuals and errors -/

section Rules

variable {C ι κ α : Type} [FactorFamily C] [LinearOrder α] [ExactScalar α] {f : Factor C ι (Block α)}
  {g : Factor C κ (Block α)} {values : List (Found α)} {r : Block α}

omit [FactorFamily C] in
/-- Half the sum of the squares, as an array without axes. -/
theorem halfSquaredNorm_eq (whole : ∀ i, Scalar.wrap α i = i) (r : Block α) :
    halfSquaredNorm r = .ok (.real (Scalar.half * (r.numbers.map (· ^ 2)).sum)) := by
  obtain ⟨p, hp, hsquares⟩ := Block.mul?_self whole r
  obtain ⟨hshape, hsum⟩ := Block.value_sum whole p
  have hcell : p.sum.toReals = .scalar (r.numbers.map (· ^ 2)).sum := by
    refine Tensor.ext_entry ((Block.shape_toReals _).trans hshape) fun k hk => ?_
    rw [Block.shape_toReals, hshape] at hk
    obtain rfl : k = 0 := Nat.lt_one_iff.1 hk
    rw [← hsquares, ← hsum]
    rfl
  unfold halfSquaredNorm
  rw [hp, fitting_some, Checked.ok_bind, Block.scaled, hcell]
  simp [Block.real, Tensor.map, Tensor.scalar]

omit [LinearOrder α] [ExactScalar α] in
theorem error_of_hasResidual [Scalar α] (h : f.kind.hasResidual = true) (values : List (Found α)) :
    f.error values = f.residual values >>= halfSquaredNorm := by
  unfold error
  cases hkind : f.kind with
  | client c =>
    rw [hkind] at h
    exact if_neg (of_decide_eq_true h)
  | jacobian | scalarJacobian | prior | between | switchingBetween => rfl

section Library

variable (whole : ∀ i, Scalar.wrap α i = i)
include whole

omit [FactorFamily C] in
theorem addImage_wider {total total' next : Block α} (htotal : total.Wider total') (hkind : total.kind ≠ .bool)
    {j j' : Value α} (hj : j.Wider j') {x : Found α} (h : addImage total (j, x) = .ok next) :
    ∃ next', addImage total' (j', x.clamped) = .ok next' ∧ next.Wider next' ∧ next.kind ≠ .bool := by
  obtain ⟨B, hB, h⟩ := Checked.bind_eq_ok h
  obtain ⟨v, hv, h⟩ := Checked.bind_eq_ok h
  obtain ⟨image, himage, h⟩ := Checked.bind_eq_ok h
  obtain ⟨B', hB', hwider⟩ := hj.array hB
  have hjoin : total.kind.join image.kind ≠ .bool := fun hbool => hkind (Kind.join_eq_bool hbool).1
  obtain ⟨next', hnext', hnext⟩ := Block.add?_wider whole htotal (.refl image) hjoin (fitting_eq_ok h)
  refine ⟨next', ?_, hnext, Block.kind_arith? (fitting_eq_ok h) ▸ hjoin⟩
  show (Value.array j' >>= fun B => x.array >>= fun v =>
    fitting (B.mulVec? v) >>= fun image => fitting (total'.add? image)) = _
  rw [hB', Checked.ok_bind, hv, Checked.ok_bind, Block.mulVec?_wider hwider (.refl v), himage, Checked.ok_bind,
    hnext', fitting_some]

omit [FactorFamily C] in
theorem jacobianForward_wider {js js' : List (Value α)} (hjs : List.Forall₂ Value.Wider js js')
    (h : jacobianForward js values = .ok r) :
    ∃ r', jacobianForward js' (values.map Found.clamped) = .ok r' ∧ r.Wider r' := by
  have hfold : ∀ {js js' : List (Value α)}, List.Forall₂ Value.Wider js js' → ∀ {values : List (Found α)}
      {total total' : Block α}, total.Wider total' → total.kind ≠ .bool →
      (js.zip values).foldlM addImage total = .ok r →
      ∃ r', (js'.zip (values.map Found.clamped)).foldlM addImage total' = .ok r' ∧ r.Wider r' := by
    intro js js' hjs
    induction hjs with
    | nil =>
      intro values total total' htotal _ h
      cases h
      exact ⟨total', rfl, htotal⟩
    | cons hj _ ih =>
      intro values total total' htotal hkind h
      cases values with
      | nil =>
        cases h
        exact ⟨total', rfl, htotal⟩
      | cons x values =>
        obtain ⟨next, hnext, h⟩ := Checked.bind_eq_ok h
        obtain ⟨next', hnext', hwider, hkind⟩ := addImage_wider whole htotal hkind hj hnext
        obtain ⟨r', hr', hr⟩ := ih hwider hkind h
        refine ⟨r', ?_, hr⟩
        rw [List.map_cons, List.zip_cons_cons, List.foldlM_cons, hnext', Checked.ok_bind, hr']
  exact hfold hjs (.refl _) nofun h

theorem forward_wider (h : f.Wider g) (hclient : ∀ c, f.kind ≠ .client c) (hr : f.forward values = .ok r) :
    ∃ r', g.forward (values.map Found.clamped) = .ok r' ∧ r.Wider r' := by
  obtain ⟨kind, handles, fields⟩ := f
  obtain ⟨kind', handles', fields'⟩ := g
  obtain rfl : kind' = kind := h.kind
  have hfields : List.Forall₂ Value.Wider fields fields' := h.fields
  unfold forward at hr
  split at hr
  next values _ _ _ _ js b hkind hshape =>
    obtain rfl : kind' = .jacobian := hkind
    obtain rfl : fields = [.node _ js, b] := hshape
    obtain ⟨j, b', rfl, hj, -⟩ := forall₂_pair hfields
    obtain ⟨js', rfl, hall⟩ := Tree.Alike.node_left hj
    exact jacobianForward_wider whole (Tree.alike_all_iff.1 hall) hr
  next scalar x hkind hshape =>
    obtain rfl : kind' = .scalarJacobian := hkind
    obtain rfl : fields = [scalar] := hshape
    obtain ⟨scalar', rest, hscalar, hrest, rfl⟩ := List.forall₂_cons_left_iff.1 hfields
    rw [List.forall₂_nil_left_iff.1 hrest]
    obtain ⟨c, hc, hr⟩ := Checked.bind_eq_ok hr
    obtain ⟨v, hv, hr⟩ := Checked.bind_eq_ok hr
    obtain ⟨c', hc', hwider⟩ := Value.Wider.array hscalar hc
    obtain ⟨r', hr', hwider⟩ := Block.mul?_wider whole hwider (.refl v) (fitting_eq_ok hr)
    refine ⟨r', ?_, hwider⟩
    show (Value.array scalar' >>= fun c => x.array >>= fun v => fitting (c.mul? v)) = _
    rw [hc', Checked.ok_bind, hv, Checked.ok_bind, hr', fitting_some]
  next c hkind => exact absurd hkind (hclient c)
  next => cases hr

omit [FactorFamily C] in
theorem betweenError_wider (h : List.Forall₂ Value.Wider f.fields g.fields)
    (hr : f.betweenError values = .ok r) :
    ∃ r', g.betweenError (values.map Found.clamped) = .ok r' ∧ r.Wider r' := by
  obtain ⟨kind, handles, fields⟩ := f
  obtain ⟨kind', handles', fields'⟩ := g
  unfold betweenError at hr
  split at hr
  next expected noise a b hshape =>
    obtain rfl : fields = [expected, noise] := hshape
    obtain ⟨expected', noise', hfields', hexpected, hnoise⟩ := forall₂_pair h
    obtain rfl : fields' = [expected', noise'] := hfields'
    obtain ⟨n, hn, hr⟩ := Checked.bind_eq_ok hr
    obtain ⟨d, hd, hr⟩ := Checked.bind_eq_ok hr
    obtain ⟨n', hn', hwider⟩ := Noise.ofTree?_wider hnoise (fitting_eq_ok hn)
    obtain ⟨r', hr', hwider⟩ := hwider.whiten whole (.refl d) hr
    refine ⟨r', ?_, hwider⟩
    show (fitting (Noise.ofTree? noise') >>= fun n =>
      a.value.betweenResidual b.value expected' >>= fun d => n.whiten d) = _
    rw [hn', fitting_some, Checked.ok_bind, Value.Wider.betweenResidual hexpected, hd, Checked.ok_bind, hr']
  next => cases hr

omit [FactorFamily C] [LinearOrder α] [ExactScalar α] whole in
/-- The motion that a label chooses, and the noise, are as wide. -/
theorem chosenBetween_wider [Scalar α] (h : f.Wider g) {part : Factor C ι (Block α)} {ends : List (Found α)}
    (hpart : f.chosenBetween values = .ok (part, ends)) :
    ∃ part', g.chosenBetween (values.map Found.clamped) = .ok (part', ends.map Found.clamped) ∧
      List.Forall₂ Value.Wider part.fields part'.fields := by
  obtain ⟨kind, handles, fields⟩ := f
  obtain ⟨kind', handles', fields'⟩ := g
  have htypes : handles'.map (·.type) = handles.map (·.type) := h.types
  have hfields : List.Forall₂ Value.Wider fields fields' := h.fields
  unfold chosenBetween at hpart
  split at hpart
  next start label stop movements noise a l b hhandles hshape =>
    obtain rfl : handles = [start, label, stop] := hhandles
    obtain rfl : fields = [movements, noise] := hshape
    obtain ⟨movements', noise', rfl, hmovements, hnoise⟩ := forall₂_pair hfields
    obtain ⟨start', label', stop', rfl⟩ : ∃ x y z, handles' = [x, y, z] :=
      List.length_eq_three.1 (by simpa using congrArg List.length htypes)
    obtain ⟨i, hi, hpart⟩ := Checked.bind_eq_ok hpart
    obtain ⟨movement, hmovement, hpart⟩ := Checked.bind_eq_ok hpart
    cases hpart
    obtain ⟨movement', hmovement', hwider⟩ := Value.Wider.take hmovements hmovement
    refine ⟨⟨.between, [start', stop'], [movement', noise']⟩, ?_, .cons hwider (.cons hnoise .nil)⟩
    show (l.array >>= fun i => Value.take .clamped movements' i >>= fun movement => _) = _
    rw [hi, Checked.ok_bind, hmovement', Checked.ok_bind]
    rfl
  next => cases hpart

theorem residual_wider (h : f.Wider g) (hclient : ∀ c, f.kind ≠ .client c) (hr : f.residual values = .ok r) :
    ∃ r', g.residual (values.map Found.clamped) = .ok r' ∧ r.Wider r' := by
  have hforward : ∀ {image}, f.forward values = .ok image →
      ∃ image', g.forward (values.map Found.clamped) = .ok image' ∧ image.Wider image' :=
    forward_wider whole h hclient
  have hbetween : ∀ {r}, f.betweenError values = .ok r →
      ∃ r', g.betweenError (values.map Found.clamped) = .ok r' ∧ r.Wider r' :=
    betweenError_wider whole h.fields
  have hchosen : ∀ {part ends}, f.chosenBetween values = .ok (part, ends) →
      ∃ part', g.chosenBetween (values.map Found.clamped) = .ok (part', ends.map Found.clamped) ∧
        List.Forall₂ Value.Wider part.fields part'.fields := chosenBetween_wider h
  have htypes : f.types = g.types := h.types.symm
  obtain ⟨kind, handles, fields⟩ := f
  obtain ⟨kind', handles', fields'⟩ := g
  obtain rfl : kind' = kind := h.kind
  have hfields : List.Forall₂ Value.Wider fields fields' := h.fields
  unfold residual at hr
  split at hr
  next values _ _ _ js b hkind hshape =>
    obtain rfl : kind' = .jacobian := hkind
    obtain rfl : fields = [js, b] := hshape
    obtain ⟨js', b', rfl, -, hb⟩ := forall₂_pair hfields
    obtain ⟨image, himage, hr⟩ := Checked.bind_eq_ok hr
    obtain ⟨error, herror, hr⟩ := Checked.bind_eq_ok hr
    obtain ⟨image', himage', hwider⟩ := hforward himage
    obtain ⟨error', herror', hwider'⟩ := Value.Wider.array hb herror
    obtain ⟨r', hr', hwider⟩ := Block.sub?_wider whole hwider hwider' (fitting_eq_ok hr)
    refine ⟨r', ?_, hwider⟩
    show (forward ⟨.jacobian, handles', [js', b']⟩ (List.map Found.clamped _) >>= fun image => Value.array b' >>= fun b =>
      fitting (image.sub? b)) = _
    rw [himage', Checked.ok_bind, herror', Checked.ok_bind, hr', fitting_some]
  next hkind =>
    obtain rfl : kind' = .scalarJacobian := hkind
    exact hforward hr
  next mu noise x hkind hshape =>
    obtain rfl : kind' = .prior := hkind
    obtain rfl : fields = [mu, noise] := hshape
    obtain ⟨mu', noise', rfl, hmu, hnoise⟩ := forall₂_pair hfields
    obtain ⟨type, htype, hr⟩ := Checked.bind_eq_ok hr
    obtain ⟨n, hn, hr⟩ := Checked.bind_eq_ok hr
    obtain ⟨v, hv, hr⟩ := Checked.bind_eq_ok hr
    obtain ⟨d, hd, hr⟩ := Checked.bind_eq_ok hr
    obtain ⟨n', hn', hwidern⟩ := Noise.ofTree?_wider hnoise (fitting_eq_ok hn)
    obtain ⟨v', d', hv', hd', hwiderd⟩ := Value.Wider.localCoordinates whole hmu hv hd
    obtain ⟨r', hr', hwider⟩ := hwidern.whiten whole hwiderd hr
    refine ⟨r', ?_, hwider⟩
    rw [htypes] at htype
    show (fitting (types ⟨.prior, handles', [mu', noise']⟩).head? >>= fun type =>
      fitting (Noise.ofTree? noise') >>= fun n => type.localCoordinates mu' x.value >>= fun v =>
        Value.array v >>= fun d => n.whiten d) = _
    rw [htype, Checked.ok_bind, hn', fitting_some, Checked.ok_bind, hv', Checked.ok_bind, hd',
      Checked.ok_bind, hr']
  next hkind =>
    obtain rfl : kind' = .between := hkind
    exact hbetween hr
  next hkind =>
    obtain rfl : kind' = .switchingBetween := hkind
    obtain ⟨⟨part, ends⟩, hpart, hr⟩ := Checked.bind_eq_ok hr
    obtain ⟨part', hpart', hwider⟩ := hchosen hpart
    obtain ⟨r', hr', hwider⟩ := betweenError_wider whole hwider hr
    refine ⟨r', ?_, hwider⟩
    show (chosenBetween ⟨.switchingBetween, handles', fields'⟩ (List.map Found.clamped _) >>= fun p => p.1.betweenError p.2) = _
    rw [hpart', Checked.ok_bind, hr']
  next c hkind => exact absurd hkind (hclient c)
  next => cases hr

end Library

end Rules

/-! ## Shapes -/

section Shapes

/-- The shape of a sum of images with one more, that of a block of a Jacobian. -/
def imageShape (total : Shape) : Tree Shape → Shape
  | .leaf s => total.joint (s.take 1)
  | _ => total

/-- The shape of a residual, by the shapes of the fields and the values. -/
def residualShape {C : Type} (k : FactorClass C) (fields values : List (Tree Shape)) : Shape :=
  match k, fields, values with
  | .jacobian, [.node _ js, .leaf s], values => (((js.zip values).map Prod.fst).foldl imageShape []).joint s
  | .scalarJacobian, [.leaf s], [.leaf t] => s.joint t
  | .prior, [_, noise], _ | .between, [_, noise], _ | .switchingBetween, [_, noise], _ =>
    (Noise.weighedShape noise).getD []
  | _, _, _ => []

variable {C ι α : Type} [FactorFamily C] [Scalar α] {f : Factor C ι (Block α)} {values : List (Found α)}
  {r : Block α}

omit [FactorFamily C] [Scalar α] in
theorem eq_leaf_of_array {v : Value α} {b : Block α} (h : v.array = .ok b) : v = .leaf b := by
  cases v with
  | leaf c => exact congrArg Tree.leaf (Option.some.inj (fitting_eq_ok h))
  | absent | node => cases h

theorem shape_mulVec? {a x u : Block α} (h : a.mulVec? x = some u) : u.shape = a.shape.take 1 := by
  obtain ⟨t, ht, rfl⟩ := Option.map_eq_some_iff.1 h
  unfold Tensor.mulVec? at ht
  split at ht
  next m n k hshape _ =>
    obtain ⟨extent, -, ht⟩ := Option.bind_eq_some_iff.1 ht
    cases ht
    rw [← Block.shape_toReals a, hshape]
    rfl
  next => cases ht

omit [FactorFamily C] in
theorem shape_addImage {total next : Block α} {p : Value α × Found α} (h : addImage total p = .ok next) :
    next.shape = imageShape total.shape (p.1.map Block.shape) := by
  obtain ⟨j, x⟩ := p
  obtain ⟨B, hB, h⟩ := Checked.bind_eq_ok h
  obtain ⟨v, hv, h⟩ := Checked.bind_eq_ok h
  obtain ⟨image, himage, h⟩ := Checked.bind_eq_ok h
  rw [eq_leaf_of_array hB, Block.shape_arith? (fitting_eq_ok h), shape_mulVec? (fitting_eq_ok himage)]
  rfl

theorem shape_jacobianForward {js : List (Value α)} (h : jacobianForward js values = .ok r) :
    r.shape = ((js.zip values).map fun p => p.1.map Block.shape).foldl imageShape [] := by
  have hfold : ∀ (pairs : List (Value α × Found α)) (total : Block α), pairs.foldlM addImage total = .ok r →
      r.shape = (pairs.map fun p => p.1.map Block.shape).foldl imageShape total.shape := by
    intro pairs
    induction pairs with
    | nil =>
      intro total h
      cases h
      rfl
    | cons p pairs ih =>
      intro total h
      obtain ⟨next, hnext, h⟩ := Checked.bind_eq_ok h
      rw [ih next h, shape_addImage hnext]
      rfl
  exact hfold _ _ h

theorem shape_forward (hclient : ∀ c, f.kind ≠ .client c) (h : f.forward values = .ok r) :
    (∃ l js b, f.kind = .jacobian ∧ f.fields = [.node l js, b] ∧
      r.shape = ((js.zip values).map fun p => p.1.map Block.shape).foldl imageShape []) ∨
    ∃ c b x, f.kind = .scalarJacobian ∧ f.fields = [.leaf c] ∧ values = [x] ∧ x.value = .leaf b ∧
      r.shape = c.shape.joint b.shape := by
  unfold forward at h
  split at h
  next l js b hkind hfields => exact .inl ⟨l, js, b, hkind, hfields, shape_jacobianForward h⟩
  next scalar x hkind hfields =>
    obtain ⟨c, hc, h⟩ := Checked.bind_eq_ok h
    obtain ⟨b, hb, h⟩ := Checked.bind_eq_ok h
    rw [eq_leaf_of_array hc] at hfields
    exact .inr ⟨c, b, x, hkind, hfields, rfl, eq_leaf_of_array hb, Block.shape_arith? (fitting_eq_ok h)⟩
  next c hkind => exact absurd hkind (hclient c)
  next => cases h

/-- The shape of a residual is told by the shapes of what it is computed from. -/
theorem shape_residual (hclient : ∀ c, f.kind ≠ .client c) (h : f.residual values = .ok r) :
    r.shape = residualShape f.kind (f.fields.map (Tree.map Block.shape))
      (values.map fun x => x.value.map Block.shape) := by
  have hforward : ∀ {image}, f.forward values = .ok image → _ := shape_forward hclient
  have hbetween : ∀ {r}, f.betweenError values = .ok r → _ := weighedShape_of_betweenError
  obtain ⟨kind, handles, fields⟩ := f
  unfold residual at h
  split at h
  next values _ _ _ js b hkind hfields =>
    obtain rfl : kind = .jacobian := hkind
    obtain rfl : fields = [js, b] := hfields
    obtain ⟨image, himage, h⟩ := Checked.bind_eq_ok h
    obtain ⟨error, herror, hsub⟩ := Checked.bind_eq_ok h
    obtain ⟨l, js, b, -, hfields, hshape⟩ | ⟨c, b, x, hkind, -⟩ := hforward himage
    · cases hfields
      rw [Block.shape_arith? (fitting_eq_ok hsub), hshape, eq_leaf_of_array herror]
      simp [residualShape, Tree.map, Tree.map_all_eq, List.zip_map, Function.comp_def]
    · cases hkind
  next hkind =>
    obtain rfl : kind = .scalarJacobian := hkind
    obtain ⟨l, js, b, hkind, -⟩ | ⟨c, b, x, -, hfields, rfl, hx, hshape⟩ := hforward h
    · cases hkind
    · obtain rfl : fields = [.leaf c] := hfields
      rw [hshape]
      simp only [List.map_cons, List.map_nil, hx]
      rfl
  next mu noise x hkind hfields =>
    obtain rfl : kind = .prior := hkind
    obtain rfl : fields = [mu, noise] := hfields
    obtain ⟨type, -, h⟩ := Checked.bind_eq_ok h
    obtain ⟨n, hn, h⟩ := Checked.bind_eq_ok h
    obtain ⟨v, -, h⟩ := Checked.bind_eq_ok h
    obtain ⟨d, -, h⟩ := Checked.bind_eq_ok h
    have hshape := Noise.weighedShape_of_ofTree? (fitting_eq_ok hn) h
    show r.shape = (Noise.weighedShape (noise.map Block.shape)).getD []
    rw [hshape, Option.getD_some]
  next hkind =>
    obtain rfl : kind = .between := hkind
    obtain ⟨expected, noise, hfields, hshape⟩ := hbetween h
    obtain rfl : fields = [expected, noise] := hfields
    show r.shape = (Noise.weighedShape (noise.map Block.shape)).getD []
    rw [hshape, Option.getD_some]
  next hkind =>
    obtain rfl : kind = .switchingBetween := hkind
    obtain ⟨⟨part, ends⟩, hpart, h⟩ := Checked.bind_eq_ok h
    obtain ⟨expected, noise, hpartfields, hshape⟩ := weighedShape_of_betweenError h
    unfold chosenBetween at hpart
    split at hpart
    next movements noise' _ _ _ _ hfields =>
      obtain rfl : fields = [movements, noise'] := hfields
      obtain ⟨i, -, hpart⟩ := Checked.bind_eq_ok hpart
      obtain ⟨movement, -, hpart⟩ := Checked.bind_eq_ok hpart
      cases hpart
      cases hpartfields
      show r.shape = (Noise.weighedShape (noise.map Block.shape)).getD []
      rw [hshape, Option.getD_some]
    next => cases hpart
  next c hkind => exact absurd hkind (hclient c)
  next => cases h

end Shapes

end Factor

end LeastSquares
