import LeastSquares.Proofs.Manifold.Rest
import LeastSquares.Proofs.Value.Plain
import LeastSquares.Factor.Derivative

/-!
# Residuals without traces

A factor is linearised in one evaluation of its residual over traced numbers, with the variables moved
along tangent vectors that are zero. The values of that evaluation are the residual where the variables
stand. Classes of the library are looked at rule by rule; a class of the client promises it.
-/

namespace LeastSquares

/-! ## Traced residuals -/

namespace Factor

variable {C ι α : Type} [FactorFamily C] [Scalar α]

/-- The factor with the values of its numbers. -/
def plain (f : Factor C ι (Block (Traced α))) : Factor C ι (Block α) := f.mapFields Block.plain

omit [FactorFamily C] [Scalar α] in
theorem plain_still [Scalar α] (f : Factor C ι (Block α)) : f.still.plain = f := by
  obtain ⟨kind, handles, fields⟩ := f
  have hfield : ∀ t : Tree (Block α), (t.map (Block.mapReals Traced.const)).map Block.plain = t := by
    intro t
    rw [Tree.map_map]
    simp only [Block.plain_still]
    exact Tree.map_id t
  simp [still, plain, mapFields, map, Function.comp_def, hfield]

omit [FactorFamily C] [Scalar α] in
@[simp] theorem types_plain (f : Factor C ι (Block (Traced α))) : f.plain.types = f.types := by
  simp [types, plain, mapFields, map]

/-- What the residual is over traced numbers, it is over their values. -/
def Traceable (f : Factor C ι (Block α)) : Prop :=
  ∀ {values : List (Found (Traced α))} {r : Block (Traced α)}, f.still.residual values = .ok r →
    f.residual (values.map Found.plain) = .ok r.plain

theorem addImage_plain {total next : Block (Traced α)} {p : Value (Traced α) × Found (Traced α)}
    (h : addImage total p = .ok next) :
    addImage total.plain (p.1.plain, p.2.plain) = .ok next.plain := by
  obtain ⟨j, x⟩ := p
  obtain ⟨B, hB, h⟩ := Checked.bind_eq_ok h
  obtain ⟨v, hv, h⟩ := Checked.bind_eq_ok h
  obtain ⟨image, himage, h⟩ := Checked.bind_eq_ok h
  show (Value.array j.plain >>= fun B => Value.array x.value.plain >>= fun v =>
    fitting (B.mulVec? v) >>= fun image => fitting (total.plain.add? image)) = _
  rw [Value.array_plain hB, Checked.ok_bind, Value.array_plain hv, Checked.ok_bind,
    Block.mulVec?_plain, fitting_eq_ok himage, Option.map_some, fitting_some, Checked.ok_bind,
    Block.add?_plain, fitting_eq_ok h]
  rfl

theorem jacobianForward_plain {jacobians : List (Value (Traced α))} {values : List (Found (Traced α))}
    {b : Block (Traced α)} (h : jacobianForward jacobians values = .ok b) :
    jacobianForward (jacobians.map Value.plain) (values.map Found.plain) = .ok b.plain := by
  have hfold : ∀ (pairs : List (Value (Traced α) × Found (Traced α))) (total : Block (Traced α)),
      pairs.foldlM addImage total = .ok b →
      (pairs.map fun p => (p.1.plain, p.2.plain)).foldlM addImage total.plain = .ok b.plain := by
    intro pairs
    induction pairs with
    | nil =>
      intro total h
      cases h
      rfl
    | cons p pairs ih =>
      intro total h
      obtain ⟨next, hnext, h⟩ := Checked.bind_eq_ok h
      rw [List.map_cons, List.foldlM_cons, addImage_plain hnext, Checked.ok_bind]
      exact ih next h
  unfold jacobianForward
  rw [List.zip_map]
  exact hfold _ _ h

section Classes

variable {f : Factor C ι (Block (Traced α))} {values : List (Found (Traced α))} {r : Block (Traced α)}

theorem forward_plain (hclient : ∀ c, f.kind ≠ .client c) (h : f.forward values = .ok r) :
    f.plain.forward (values.map Found.plain) = .ok r.plain := by
  obtain ⟨kind, handles, fields⟩ := f
  unfold forward at h
  split at h
  next values _ _ _ _ jacobians _ hkind hfields =>
    obtain rfl : kind = .jacobian := hkind
    obtain rfl : fields = [.node _ jacobians, _] := hfields
    have hmap : Tree.map.all Block.plain jacobians = jacobians.map Value.plain := Tree.map_all_eq ..
    show jacobianForward (Tree.map.all Block.plain jacobians) (values.map Found.plain) = _
    rw [hmap]
    exact jacobianForward_plain h
  next scalar x hkind hfields =>
    obtain rfl : kind = .scalarJacobian := hkind
    obtain rfl : fields = [scalar] := hfields
    obtain ⟨c, hc, h⟩ := Checked.bind_eq_ok h
    obtain ⟨v, hv, h⟩ := Checked.bind_eq_ok h
    show (Value.array (Value.plain scalar) >>= fun c => Value.array x.value.plain >>= fun v =>
      fitting (c.mul? v)) = _
    rw [Value.array_plain hc, Checked.ok_bind, Value.array_plain hv, Checked.ok_bind, Block.mul?_plain,
      fitting_eq_ok h]
    rfl
  next c hkind => exact absurd hkind (hclient c)
  next => cases h

omit [FactorFamily C] in
theorem betweenError_plain (h : f.betweenError values = .ok r) :
    f.plain.betweenError (values.map Found.plain) = .ok r.plain := by
  obtain ⟨kind, handles, fields⟩ := f
  unfold betweenError at h
  split at h
  next expected noise a b hfields =>
    obtain rfl : fields = [expected, noise] := hfields
    obtain ⟨n, hn, h⟩ := Checked.bind_eq_ok h
    obtain ⟨d, hd, h⟩ := Checked.bind_eq_ok h
    show (fitting (Noise.ofTree? (Value.plain noise)) >>= fun n =>
      a.value.plain.betweenResidual b.value.plain (Value.plain expected) >>= fun d => n.whiten d) = _
    rw [Noise.ofTree?_plain (fitting_eq_ok hn), fitting_some, Checked.ok_bind,
      Value.betweenResidual_plain hd, Checked.ok_bind, Noise.whiten_plain h]
  next => cases h

/-- The residuals of the classes of the library that have no label. -/
theorem residual_plain (hclient : ∀ c, f.kind ≠ .client c) (hlabel : f.kind ≠ .switchingBetween)
    (h : f.residual values = .ok r) : f.plain.residual (values.map Found.plain) = .ok r.plain := by
  have hforward : ∀ {image}, f.forward values = .ok image →
      f.plain.forward (values.map Found.plain) = .ok image.plain := forward_plain hclient
  obtain ⟨kind, handles, fields⟩ := f
  unfold residual at h
  split at h
  next values _ _ _ jacobians error hkind hfields =>
    obtain rfl : kind = .jacobian := hkind
    obtain rfl : fields = [jacobians, error] := hfields
    obtain ⟨image, himage, h⟩ := Checked.bind_eq_ok h
    obtain ⟨b, hb, h⟩ := Checked.bind_eq_ok h
    show (forward _ (values.map Found.plain) >>= fun image => Value.array (Value.plain error) >>= fun b =>
      fitting (image.sub? b)) = _
    rw [hforward himage, Checked.ok_bind, Value.array_plain hb, Checked.ok_bind, Block.sub?_plain,
      fitting_eq_ok h]
    rfl
  next hkind =>
    obtain rfl : kind = .scalarJacobian := hkind
    exact hforward h
  next mu noise x hkind hfields =>
    obtain rfl : kind = .prior := hkind
    obtain rfl : fields = [mu, noise] := hfields
    obtain ⟨type, htype, h⟩ := Checked.bind_eq_ok h
    obtain ⟨n, hn, h⟩ := Checked.bind_eq_ok h
    obtain ⟨v, hv, h⟩ := Checked.bind_eq_ok h
    obtain ⟨d, hd, h⟩ := Checked.bind_eq_ok h
    rw [← types_plain] at htype
    show (fitting (types (plain ⟨.prior, handles, [mu, noise]⟩)).head? >>= fun type =>
      fitting (Noise.ofTree? (Value.plain noise)) >>= fun n =>
        type.localCoordinates (Value.plain mu) x.value.plain >>= fun v =>
          Value.array v >>= fun d => n.whiten d) = _
    rw [htype, Checked.ok_bind, Noise.ofTree?_plain (fitting_eq_ok hn), fitting_some, Checked.ok_bind,
      VariableType.localCoordinates_plain hv, Checked.ok_bind, Value.array_plain hd, Checked.ok_bind,
      Noise.whiten_plain h]
  next hkind =>
    obtain rfl : kind = .between := hkind
    exact betweenError_plain h
  next hkind => exact absurd hkind hlabel
  next c hkind => exact absurd hkind (hclient c)
  next => cases h

end Classes

/-- A factor of a class of the library that connects no labels. -/
theorem traceable_of_library {f : Factor C ι (Block α)} (hclient : ∀ c, f.kind ≠ .client c)
    (hlabel : f.kind ≠ .switchingBetween) : f.Traceable := by
  intro values r h
  have hplain := residual_plain hclient hlabel h
  rwa [plain_still] at hplain

end Factor

end LeastSquares
