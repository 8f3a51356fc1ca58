import LeastSquares.Proofs.Array.Wider
import LeastSquares.Proofs.Factor.Affine
import LeastSquares.Proofs.Factor.Relative
import LeastSquares.Proofs.Noise.Covariance
import LeastSquares.Proofs.Value.Motion

/-!
# Factors under two forms of one noise

A prior and a relative motion measure a vector and leave it to a noise to whiten it. Two noises that
weigh every coordinate alone, and by the same number, whiten it to the same. Over traced numbers they
do so by other steps, but to the same values and slopes: so error vectors, gradients and linearised
factors do not tell the two apart.
-/

namespace LeastSquares

/-! ## What is measured -/

namespace Factor

variable {C ι β γ : Type} [FactorFamily C] {kind : FactorClass C} {handles : List (Handle ι)}

/-- The residual of a prior or of a relative motion before it is whitened. -/
def measured [Scalar β] (kind : FactorClass C) (types : List VariableType) (motion : Value β)
    (values : List (Found β)) : Checked (Block β) :=
  match kind, values with
  | .prior, [x] => do
    let type ← fitting types.head?
    (← type.localCoordinates motion x.value).array
  | .between, [a, b] => a.value.betweenResidual b.value motion
  | _, _ => misfit

/-- A factor that measures against a given motion, under a noise. -/
def weighed (kind : FactorClass C) (handles : List (Handle ι)) (motion : Value β) (noise : Noise β) :
    Factor C ι (Block β) :=
  ⟨kind, handles, [motion, noise.tree id]⟩

theorem residual_weighed [Scalar β] (hkind : kind = .prior ∨ kind = .between) (motion : Value β)
    (noise : Noise β) (values : List (Found β)) :
    (weighed kind handles motion noise).residual values =
      measured kind (handles.map (·.type)) motion values >>= noise.whiten := by
  have hnoise : Noise.ofTree? (noise.tree id) = some noise := by cases noise <;> rfl
  rcases hkind with rfl | rfl
  · match values with
    | [x] =>
      show (fitting (handles.map (·.type)).head? >>= fun type =>
        fitting (Noise.ofTree? (noise.tree id)) >>= fun noise =>
          type.localCoordinates motion x.value >>= fun d => d.array >>= noise.whiten) = _
      simp only [hnoise, fitting_some, Checked.ok_bind, measured, bind_assoc]
    | [] | _ :: _ :: _ => rfl
  · match values with
    | [a, b] =>
      show (fitting (Noise.ofTree? (noise.tree id)) >>= fun noise =>
        a.value.betweenResidual b.value motion >>= noise.whiten) = _
      rw [hnoise, fitting_some, Checked.ok_bind]
      rfl
    | [] | [_] | _ :: _ :: _ :: _ => rfl

omit [FactorFamily C] in
theorem still_weighed [Scalar β] (kind : FactorClass C) (handles : List (Handle ι)) (motion : Value β)
    (noise : Noise β) : (weighed kind handles motion noise).still =
      weighed kind handles motion.still (noise.map Traced.const) := by
  have htree : Tree.map (Block.mapReals Traced.const) (noise.tree id) =
      (noise.map Traced.const).tree id := by cases noise <;> rfl
  simp only [still, weighed, mapFields, Factor.map, List.map_cons, List.map_nil, htree, id, List.map_id']
  rfl

/-- The error is half the square of what is left after whitening. -/
theorem error_weighed [Scalar β] (hkind : kind = .prior ∨ kind = .between) (motion : Value β)
    (noise : Noise β) (values : List (Found β)) :
    (weighed kind handles motion noise).error values =
      (weighed kind handles motion noise).residual values >>= halfSquaredNorm := by
  rcases hkind with rfl | rfl <;> rfl

end Factor

/-! ## Derivatives of equal residuals -/

namespace Factor

section Jets

variable {C ι α : Type} [FactorFamily C] [LinearOrder α] [ExactScalar α]
  {f g : Factor C ι (Block α)} {values : List (Found α)} {R R' : Block (Traced α)}

omit [FactorFamily C] in
theorem jet_entry (h : R.mapReals Traced.jet = R'.mapReals Traced.jet) (k : Nat) :
    (R.toReals.entry k).jet = (R'.toReals.entry k).jet := by
  have hentry : ∀ B : Block (Traced α),
      (B.mapReals Traced.jet).toReals.entry k = (B.toReals.entry k).jet := fun B =>
    (congrArg (Tensor.entry · k) (Block.toReals_map Traced.jetHom B)).trans
      (Tensor.entry_image Traced.jetHom B.toReals k)
  rw [← hentry, h, hentry]

/-- Residuals with the same values and slopes are linearised to the same. -/
theorem linearizing_congr (hhandles : f.handles = g.handles)
    (hjets : ∀ moving, f.movingValues values = .ok moving →
      (f.still.residual moving).map (Block.mapReals Traced.jet) =
        (g.still.residual moving).map (Block.mapReals Traced.jet)) :
    f.linearizing values = g.linearizing values := by
  have hinputs : f.inputs = g.inputs := by rw [inputs, inputs, tangentDims, tangentDims, types, types, hhandles]
  have hmoving : f.movingValues values = g.movingValues values := by
    rw [movingValues, movingValues, hinputs]
  cases hf : f.movingValues values with
  | error e =>
    unfold linearizing
    rw [← hmoving, hf]
    rfl
  | ok moving =>
    have hg := hmoving.symm.trans hf
    have halike := Checked.alike_of_map (hjets moving hf)
    generalize hR : f.still.residual moving = x at halike
    generalize hR' : g.still.residual moving = y at halike
    cases halike with
    | error e =>
      unfold linearizing
      rw [hf, hg, Checked.ok_bind, Checked.ok_bind, hR, hR']
      rfl
    | @ok R R' h =>
      have hshape : R.shape = R'.shape := by
        rw [← R.shape_mapReals, h, R'.shape_mapReals]
      by_cases hm : ∃ m, R.shape = [m]
      · obtain ⟨m, hm⟩ := hm
        rw [linearizing_eq hf hR hm, linearizing_eq hg hR' (hshape.symm.trans hm), hhandles, hinputs]
        have hslopes : slopeBlock R m = slopeBlock R' m := funext fun p => Tensor.generate_congr fun k _ =>
          congrFun (congrArg Jet.slope (jet_entry h _)) _
        have hvalues : ∀ j, (R.toReals.entry j).value = (R'.toReals.entry j).value := fun j =>
          congrArg Jet.value (jet_entry h j)
        simp only [hslopes, hvalues]
      · unfold linearizing
        rw [hf, hg, Checked.ok_bind, Checked.ok_bind, hR, hR', Checked.ok_bind, Checked.ok_bind, ← hshape]
        split
        next m h => exact absurd ⟨m, h⟩ hm
        next => rfl

/-- Errors with the same value and slopes have the same gradient. -/
theorem errorGradient_congr (hhandles : f.handles = g.handles)
    (hjets : ∀ moving, f.movingValues values = .ok moving →
      (f.still.error moving).map (Block.mapReals Traced.jet) =
        (g.still.error moving).map (Block.mapReals Traced.jet)) :
    f.errorGradient values = g.errorGradient values := by
  have hinputs : f.inputs = g.inputs := by rw [inputs, inputs, tangentDims, tangentDims, types, types, hhandles]
  have hsize : f.tangentSize = g.tangentSize := by
    rw [tangentSize, tangentSize, tangentDims, tangentDims, types, types, hhandles]
  have hmoving : f.movingValues values = g.movingValues values := by
    rw [movingValues, movingValues, hinputs]
  unfold errorGradient
  rw [← hmoving]
  cases hf : f.movingValues values with
  | error e => rfl
  | ok moving =>
    rw [Checked.ok_bind, Checked.ok_bind]
    refine (Checked.alike_of_map (hjets moving hf).symm).bind_eq fun e' e h => congrArg Except.ok ?_
    rw [hinputs, hsize]
    refine List.map_congr_left fun t ht => congrArg Block.reals (Tensor.generate_congr fun j hj => ?_)
    have hj : j < t.1.tangentDim := by simpa using hj
    exact Traced.derivatives_of_jet (jet_entry h.symm 0)
      ((Nat.add_lt_add_left hj _).trans_le (g.inputs_le t ht)) _

end Jets

/-! ## Two forms of one noise -/

section Alike

variable {C ι α : Type} [FactorFamily C] [LinearOrder α] [ExactScalar α]
  {kind : FactorClass C} {handles : List (Handle ι)} {motion : Value α} {n : Nat}
  {noise noise' : Noise α} {values : List (Found α)}

theorem residual_alike (hkind : kind = .prior ∨ kind = .between) (h : noise.Alike n noise')
    (hmeasured : ∀ r, measured kind (handles.map (·.type)) motion values = .ok r → r.shape = [n]) :
    (weighed kind handles motion noise).residual values =
      (weighed kind handles motion noise').residual values := by
  rw [residual_weighed hkind, residual_weighed hkind]
  cases hr : measured kind (handles.map (·.type)) motion values with
  | error e => rfl
  | ok r => exact @Noise.Alike.whiten_eq n α (ExactScalar.ringScalar α) _ _ h r (hmeasured r hr)

/-- Over traced numbers the residuals have the same values and slopes. -/
theorem residual_jets (hkind : kind = .prior ∨ kind = .between) (h : noise.Alike n noise')
    {moving : List (Found (Traced α))}
    (hmeasured : ∀ r, measured kind (handles.map (·.type)) motion.still moving = .ok r → r.shape = [n]) :
    ((weighed kind handles motion noise).still.residual moving).map (Block.mapReals Traced.jet) =
      ((weighed kind handles motion noise').still.residual moving).map (Block.mapReals Traced.jet) := by
  rw [still_weighed, still_weighed, residual_weighed hkind, residual_weighed hkind]
  cases hr : measured kind (handles.map (·.type)) motion.still moving with
  | error e => rfl
  | ok r =>
    have hstill : ((noise.map Traced.const).map Traced.jet).Alike n ((noise'.map Traced.const).map Traced.jet) :=
      (h.map Traced.constHom).map Traced.jetHom
    have hshape : (r.mapReals Traced.jet).shape = [n] := (Block.shape_mapReals r).trans (hmeasured r hr)
    have hwhiten : ∀ N : Noise (Traced α), (N.whiten r).map (Block.mapReals Traced.jet) =
        (N.map Traced.jet).whiten (r.mapReals Traced.jet) := fun N => (N.whiten_map Traced.jetHom r).symm
    rw [Checked.ok_bind, Checked.ok_bind, hwhiten, hwhiten]
    exact hstill.whiten_eq hshape

/-- The residual, the gradient and the linearised factor are the same, also where they fail. -/
structure Indistinct (f g : Factor C ι (Block α)) (values : List (Found α)) : Prop where
  residual : f.residual values = g.residual values
  gradient : f.errorGradient values = g.errorGradient values
  linearized : f.linearized values = g.linearized values

/-- Whatever the first factor computes the second computes too. -/
structure Refines (f g : Factor C ι (Block α)) (values : List (Found α)) : Prop where
  residual {r : Block α} : f.residual values = .ok r → g.residual values = .ok r
  gradient {ds : List (Block α)} : f.errorGradient values = .ok ds → g.errorGradient values = .ok ds
  linearized {h : Factor C ι (Block α)} : f.linearized values = .ok h → g.linearized values = .ok h

theorem linearized_weighed (hkind : kind = .prior ∨ kind = .between) :
    (weighed kind handles motion noise).linearized values =
      (weighed kind handles motion noise).checkDifferentiable >>= fun _ =>
        (weighed kind handles motion noise).linearizing values := by
  rcases hkind with rfl | rfl <;> exact bind_assoc ..

theorem errorGradient_alike (hkind : kind = .prior ∨ kind = .between) (h : noise.Alike n noise')
    (hmeasured : ∀ moving r, (weighed (C := C) kind handles motion noise).movingValues values = .ok moving →
      measured kind (handles.map (·.type)) motion.still moving = .ok r → r.shape = [n]) :
    (weighed (C := C) kind handles motion noise).errorGradient values =
      (weighed kind handles motion noise').errorGradient values := by
  refine errorGradient_congr rfl fun moving hmoving => ?_
  have hjets := residual_jets (C := C) hkind h fun r hr => hmeasured moving r hmoving hr
  have hnorm : ∀ x : Checked (Block (Traced α)), (x >>= halfSquaredNorm).map (Block.mapReals Traced.jet) =
      x.map (Block.mapReals Traced.jet) >>= halfSquaredNorm := fun x => by
    rw [Checked.bind_map, Checked.map_bind]
    exact bind_congr fun r => (halfSquaredNorm_map Traced.jetHom r).symm
  rw [still_weighed, still_weighed] at hjets ⊢
  rw [error_weighed hkind, error_weighed hkind, hnorm, hnorm, hjets]

theorem linearized_alike (hkind : kind = .prior ∨ kind = .between) (h : noise.Alike n noise')
    (hmeasured : ∀ moving r, (weighed (C := C) kind handles motion noise).movingValues values = .ok moving →
      measured kind (handles.map (·.type)) motion.still moving = .ok r → r.shape = [n]) :
    (weighed (C := C) kind handles motion noise).linearized values =
      (weighed kind handles motion noise').linearized values := by
  rw [linearized_weighed hkind, linearized_weighed hkind]
  exact bind_congr fun _ => linearizing_congr rfl fun moving hmoving =>
    residual_jets hkind h fun r hr => hmeasured moving r hmoving hr

/-- A diagonal root asks for a vector of its length. -/
theorem shape_of_whiten {β : Type} [Scalar β] {noise noise' : Noise β} (h : noise.Alike n noise')
    {r w : Block β} (hw : noise'.whiten r = .ok w) : r.shape = [n] := by
  obtain ⟨-, ht, -⟩ := h
  obtain ⟨_, hshape, -⟩ := Checked.bind_eq_ok hw
  unfold require at hshape
  split at hshape
  next hr => exact (of_decide_eq_true hr).trans ht
  next => cases hshape

/-- What is computed under the diagonal root is computed under the full one. -/
theorem refines_of_alike (hkind : kind = .prior ∨ kind = .between) (h : noise.Alike n noise') :
    Refines (weighed (C := C) kind handles motion noise') (weighed kind handles motion noise) values := by
  have htraced : ∀ {moving : List (Found (Traced α))} {R : Block (Traced α)},
      (weighed (C := C) kind handles motion noise').still.residual moving = .ok R →
        ∀ r, measured kind (handles.map (·.type)) motion.still moving = .ok r → r.shape = [n] := by
    intro moving R hR r hr
    rw [still_weighed, residual_weighed hkind, hr, Checked.ok_bind] at hR
    exact shape_of_whiten (h.map Traced.constHom) hR
  refine ⟨fun {w} hw => ?_, fun {ds} hds => ?_, fun {g} hg => ?_⟩
  · refine (residual_alike hkind h fun r hr => ?_).trans hw
    rw [residual_weighed hkind, hr, Checked.ok_bind] at hw
    exact shape_of_whiten h hw
  · refine (errorGradient_alike hkind h fun moving r hmoving hr => ?_).trans hds
    obtain ⟨_, hmoving', hrest⟩ := Checked.bind_eq_ok hds
    obtain rfl := Except.ok.inj (hmoving'.symm.trans hmoving)
    obtain ⟨e, he, -⟩ := Checked.bind_eq_ok hrest
    rw [still_weighed, error_weighed hkind, ← still_weighed] at he
    obtain ⟨R, hR, -⟩ := Checked.bind_eq_ok he
    exact htraced hR r hr
  · refine (linearized_alike hkind h fun moving r hmoving hr => ?_).trans hg
    rw [linearized_weighed hkind] at hg
    obtain ⟨_, -, hg⟩ := Checked.bind_eq_ok hg
    obtain ⟨_, hmoving', hrest⟩ := Checked.bind_eq_ok hg
    obtain rfl := Except.ok.inj (hmoving'.symm.trans hmoving)
    obtain ⟨R, hR, -⟩ := Checked.bind_eq_ok hrest
    exact htraced hR r hr

end Alike

/-! ## Values of the shapes of their types -/

end Factor

theorem LieGroup.shape_difference? {β : Type} [Scalar β] {g : LieGroup} {p q u : Tensor β}
    (hp : p.shape = [g.paramDim]) (hq : q.shape = [g.paramDim]) (h : g.difference? p q = some u) :
    u.shape = [g.tangentDim] := by
  have hproduct : ∀ x y : Nat → β, (Tensor.vector (g.mulRow x y).toArray).shape = [g.paramDim] :=
    fun x y => LieGroup.shape_vector_mulRow ..
  rw [difference?, inverse?_single hp] at h
  replace h : (g.mul? (.vector (g.inverseRow p.entry).toArray) q >>= g.log?) = some u := h
  rw [mul?_single (by simp [Tensor.vector]) hq] at h
  replace h : g.log? (.vector (g.mulRow _ q.entry).toArray) = some u := h
  unfold log? at h
  split at h
  · cases h
    rfl
  · cases h

theorem VariableType.shape_localCoordinates {β : Type} [Scalar β] {t : VariableType}
    (ht : t.isDifferentiable = true) {x y v : Value β} {r : Block β} (hx : x.HasShapes t.shapes)
    (hy : y.HasShapes t.shapes) (hv : t.localCoordinates x y = .ok v) (hr : v.array = .ok r) :
    r.shape = [t.tangentDim] := by
  by_cases heuclidean : t.isEuclidean = true
  · obtain ⟨from_, hfrom, -, hfromshape⟩ := Value.flatten_of_shapes hx
    obtain ⟨target, htarget, -, hshape⟩ := Value.flatten_of_shapes hy
    have hlocal : t.localCoordinates x y = y.flatten >>= fun target => x.flatten >>= fun flat =>
        fitting (target.sub? flat) >>= fun d => .ok (.ofBlock d) := by
      cases t <;> first | rfl | cases heuclidean
    rw [hlocal, htarget, Checked.ok_bind, hfrom, Checked.ok_bind] at hv
    obtain ⟨d, hd, hv⟩ := Checked.bind_eq_ok hv
    cases hv
    obtain rfl : d = r := Except.ok.inj hr
    rw [Block.shape_arith? (fitting_eq_ok hd), hshape, hfromshape, Shape.joint_self, tangentDim_eq heuclidean]
    rfl
  · cases t with
    | lie g =>
      obtain ⟨a, rfl, ha⟩ := Value.HasShapes.group hx
      obtain ⟨b, rfl, hb⟩ := Value.HasShapes.group hy
      replace hv : fitting (Value.difference? (.node (.group g) [.leaf a]) (.node (.group g) [.leaf b])) =
        .ok v := hv
      rw [Value.difference?, if_pos rfl] at hv
      obtain ⟨u, hu, rfl⟩ := Option.map_eq_some_iff.1 (fitting_eq_ok hv)
      obtain rfl : Block.reals u = r := Except.ok.inj hr
      exact LieGroup.shape_difference? (a.shape_toReals.trans ha) (b.shape_toReals.trans hb) hu
    | discrete => cases ht
    | real | euclidean => exact absurd rfl heuclidean

theorem Value.shape_betweenResidual {β : Type} [Scalar β] {g : LieGroup} {a b expected : Value β} {r : Block β}
    (ha : a.HasShapes (VariableType.lie g).shapes) (hb : b.HasShapes (VariableType.lie g).shapes)
    (hexpected : expected.HasShapes (VariableType.lie g).shapes)
    (h : a.betweenResidual b expected = .ok r) : r.shape = [g.tangentDim] := by
  obtain ⟨p, rfl, hp⟩ := Value.HasShapes.group ha
  obtain ⟨q, rfl, hq⟩ := Value.HasShapes.group hb
  obtain ⟨c, rfl, hc⟩ := Value.HasShapes.group hexpected
  rw [betweenResidual_eq rfl rfl (LieGroup.relative?_single (p.shape_toReals.trans hp)
    (q.shape_toReals.trans hq)), motionResidual] at h
  simp only [group?, fitting_some, Checked.ok_bind, ne_eq, not_true_eq_false, if_false] at h
  obtain ⟨u, hu, h⟩ := Checked.bind_eq_ok h
  cases h
  exact LieGroup.shape_difference? (by simp [Tensor.vector, LieGroup.relativeRow]) (c.shape_toReals.trans hc)
    (fitting_eq_ok hu)

namespace Factor

section WellShaped

variable {C ι α : Type}

/-- A prior on a variable, or a motion between two elements of one group, with `n` tangent directions; all
values have the shapes of their types. -/
inductive WellShaped {β : Type} (n : Nat) :
    FactorClass C → List VariableType → Value β → List (Found β) → Prop where
  | prior {t : VariableType} {mu : Value β} {x : Found β} : t.isDifferentiable = true → t.tangentDim = n →
      mu.HasShapes t.shapes → x.value.HasShapes t.shapes → WellShaped n .prior [t] mu [x]
  | between {g : LieGroup} {motion : Value β} {x y : Found β} : g.tangentDim = n →
      motion.HasShapes (VariableType.lie g).shapes → x.value.HasShapes (VariableType.lie g).shapes →
      y.value.HasShapes (VariableType.lie g).shapes →
      WellShaped n .between [.lie g, .lie g] motion [x, y]

theorem WellShaped.shape_measured {β : Type} [Scalar β] {n : Nat} {kind : FactorClass C}
    {types : List VariableType} {motion : Value β} {values : List (Found β)}
    (h : WellShaped n kind types motion values) {r : Block β} (hr : measured kind types motion values = .ok r) :
    r.shape = [n] := by
  cases h with
  | prior ht hn hmu hx =>
    obtain ⟨_, htype, hr⟩ := Checked.bind_eq_ok hr
    cases htype
    obtain ⟨v, hv, hr⟩ := Checked.bind_eq_ok hr
    rw [VariableType.shape_localCoordinates ht hmu hx hv hr, hn]
  | between hn hmotion hx hy => rw [Value.shape_betweenResidual hx hy hmotion hr, hn]

theorem WellShaped.kind_eq {β : Type} {n : Nat} {kind : FactorClass C} {types : List VariableType}
    {motion : Value β} {values : List (Found β)} (h : WellShaped n kind types motion values) :
    kind = .prior ∨ kind = .between := by
  cases h with
  | prior => exact .inl rfl
  | between => exact .inr rfl

theorem hasShapes_still [Scalar α] {shapes : Tree Shape} {v : Value α} (h : v.HasShapes shapes) :
    v.still.HasShapes shapes := by
  rw [Value.HasShapes, Value.still, Tree.map_map]
  simp only [Block.shape_mapReals]
  exact h

variable [FactorFamily C] [LinearOrder α] [ExactScalar α] {kind : FactorClass C} {handles : List (Handle ι)}
  {motion : Value α} {noise noise' : Noise α} {n : Nat} {values : List (Found α)}

/-- Values keep their shapes when they are moved along inputs. -/
theorem hasShapes_moved {t : VariableType} (ht : t.isDifferentiable = true) {x : Value α}
    (hx : x.HasShapes t.shapes) {start : Nat} {y : Value (Traced α)}
    (hy : t.retract x.still (.ofBlock (displacement t.tangentDim start)) = .ok y) : y.HasShapes t.shapes := by
  obtain ⟨y', hy', hform⟩ := VariableType.retract_of_shapes ht (hasShapes_still hx)
    (d := displacement t.tangentDim start) rfl
  obtain rfl := Except.ok.inj (hy.symm.trans hy')
  have hshapes := congrArg (Tree.map Prod.snd) hform
  rw [Value.form, Tree.map_map, Tree.map_map] at hshapes
  exact hshapes.trans (Tree.map_id t.shapes)

omit [FactorFamily C] in
theorem WellShaped.moving (h : WellShaped n kind (handles.map (·.type)) motion values)
    {moving : List (Found (Traced α))}
    (hmoving : (weighed (C := C) kind handles motion noise).movingValues values = .ok moving) :
    WellShaped n kind (handles.map (·.type)) motion.still moving := by
  have hinputs : (weighed (C := C) kind handles motion noise).inputs =
    (handles.map (·.type)).zip (offsets ((handles.map (·.type)).map (·.tangentDim)) 0) := rfl
  have hmoved : ∀ {t : VariableType} {start : Nat} {x : Found α} {y : Found (Traced α)},
      t.isDifferentiable = true → x.value.HasShapes t.shapes →
      (t.retract x.value.still (.ofBlock (displacement t.tangentDim start)) >>= fun v =>
        (.ok ⟨v, .clamped⟩ : Checked (Found (Traced α)))) = .ok y → y.value.HasShapes t.shapes := by
    intro t start x y ht hx hy
    obtain ⟨v, hv, hy⟩ := Checked.bind_eq_ok hy
    cases hy
    exact hasShapes_moved ht hx hv
  unfold movingValues at hmoving
  rw [hinputs] at hmoving
  have hrows := Checked.forall₂_of_mapM hmoving
  generalize handles.map (·.type) = types at *
  cases h with
  | prior ht hn hmu hx =>
    obtain ⟨y, rest, hy, hrest, rfl⟩ := List.forall₂_cons_left_iff.1 hrows
    obtain rfl := List.forall₂_nil_left_iff.1 hrest
    exact .prior ht hn (hasShapes_still hmu) (hmoved ht hx hy)
  | between hn hmotion hx hy =>
    obtain ⟨x', rest, hx', hrest, rfl⟩ := List.forall₂_cons_left_iff.1 hrows
    obtain ⟨y', none, hy', hnone, rfl⟩ := List.forall₂_cons_left_iff.1 hrest
    obtain rfl := List.forall₂_nil_left_iff.1 hnone
    exact .between hn (hasShapes_still hmotion) (hmoved rfl hx hx') (hmoved rfl hy hy')

/-- At values of the shapes of their types nothing tells two forms of one noise apart. -/
theorem WellShaped.indistinct (h : WellShaped n kind (handles.map (·.type)) motion values)
    (halike : noise.Alike n noise') :
    Indistinct (weighed (C := C) kind handles motion noise) (weighed kind handles motion noise') values where
  residual := residual_alike h.kind_eq halike fun _ hr => h.shape_measured hr
  gradient := errorGradient_alike h.kind_eq halike fun _ _ hmoving hr => (h.moving hmoving).shape_measured hr
  linearized := linearized_alike h.kind_eq halike fun _ _ hmoving hr => (h.moving hmoving).shape_measured hr

end WellShaped

end Factor

/-! ## Covariances -/

open Factor in
/-- A residual that is whitened by the noise of a positive definite covariance has the square of the norm
that the inverse of the covariance gives. Of a diagonal covariance and of its variances alone the noises
whiten alike, in a prior or a relative motion too. -/
theorem Noise.whitening_of_covariance {n : ℕ} {covariance : Block ℝ} (hshape : covariance.shape = [n, n]) :
    ((covariance.matrix n).PosDef → ∃ noise, ofCovariance covariance = .ok noise ∧
      ∀ r, r.shape = [n] → ∃ w, noise.whiten r = .ok w ∧ w.shape = [n] ∧
        w.coordinates n ⬝ᵥ w.coordinates n =
          r.coordinates n ⬝ᵥ (covariance.matrix n)⁻¹.mulVec (r.coordinates n)) ∧
    ∀ variances : Block ℝ, variances.shape = [n] → (∀ i, 0 < variances.coordinates n i) →
      covariance.matrix n = .diagonal (variances.coordinates n) →
      ∃ noise, ofCovariance covariance = .ok noise ∧
        (∀ r, r.shape = [n] → ∃ w, noise.whiten r = .ok w ∧ (ofVariances variances).whiten r = .ok w) ∧
        ∀ (C ι : Type) [FactorFamily C] (kind : FactorClass C) (handles : List (Handle ι))
          (motion : Value ℝ) (values : List (Found ℝ)), kind = .prior ∨ kind = .between →
          Refines (weighed kind handles motion (ofVariances variances))
            (weighed kind handles motion noise) values ∧
          (WellShaped n kind (handles.map (·.type)) motion values →
            Indistinct (weighed kind handles motion noise)
              (weighed kind handles motion (ofVariances variances)) values) := by
  refine ⟨whiten_ofCovariance hshape, fun variances hvariances hpos hdiagonal => ?_⟩
  obtain ⟨noise, hnoise, halike⟩ := ofCovariance_diagonal hvariances hpos hshape hdiagonal
  have hdefinite : (covariance.matrix n).PosDef := hdiagonal ▸ .diagonal hpos
  refine ⟨noise, hnoise, fun r hr => ?_, fun C ι _ kind handles motion values hkind =>
    ⟨refines_of_alike hkind halike, fun h => h.indistinct halike⟩⟩
  obtain ⟨noise', hnoise', hwhiten⟩ := whiten_ofCovariance hshape hdefinite
  obtain rfl := Except.ok.inj (hnoise.symm.trans hnoise')
  obtain ⟨w, hw, -⟩ := hwhiten r hr
  exact ⟨w, hw, (@Alike.whiten_eq n ℝ (ExactScalar.ringScalar ℝ) _ _ halike r hr).symm.trans hw⟩

/-- The covariance of two quantities that are correlated: a unit of variance in common, and a unit of their own. -/
noncomputable def correlated : Block ℝ := .reals (.generate [2, 2] fun k => 1 + if k / 2 = k % 2 then 1 else 0)

/-- The variances of two quantities. -/
noncomputable def spread : Block ℝ := .reals (.generate [2] fun i => if i = 0 then 1 else 4)

/-- The covariance of two quantities that are not correlated. -/
noncomputable def uncorrelated : Block ℝ :=
  .reals (.generate [2, 2] fun k => if k / 2 = k % 2 then (if k / 2 = 0 then 1 else 4) else 0)

theorem spread_eq (i : Fin 2) : spread.coordinates 2 i = if i.val = 0 then 1 else 4 := by
  have hi : i.val < Shape.volume [2] := i.2
  exact Tensor.entry_generate (f := fun i => if i = 0 then 1 else 4) hi

theorem spread_pos (i : Fin 2) : 0 < spread.coordinates 2 i := by
  rw [spread_eq]
  split <;> norm_num

theorem uncorrelated_eq : uncorrelated.matrix 2 = .diagonal (spread.coordinates 2) := by
  ext i j
  refine (Noise.entry_generate_cell (x := fun i j => if i = j then (if i = 0 then 1 else 4) else 0) i.2 j.2).trans ?_
  rw [Matrix.diagonal_apply, spread_eq]
  simp only [Fin.ext_iff]

theorem correlated_posDef : (correlated.matrix 2).PosDef := by
  have hmatrix : correlated.matrix 2 = !![2, 1; 1, 2] := by
    ext i j
    refine (Noise.entry_generate_cell (x := fun i j => 1 + if i = j then 1 else 0) i.2 j.2).trans ?_
    fin_cases i <;> fin_cases j <;> norm_num
  rw [hmatrix]
  refine .of_dotProduct_mulVec_pos (by ext i j; fin_cases i <;> fin_cases j <;> rfl) fun x hx => ?_
  have hform : star x ⬝ᵥ Matrix.mulVec !![2, 1; 1, 2] x = x 0 ^ 2 + x 1 ^ 2 + (x 0 + x 1) ^ 2 := by
    simp [Matrix.mulVec, dotProduct, Fin.sum_univ_two]
    ring
  rw [hform]
  by_contra hle
  have h0 : x 0 = 0 := by nlinarith [sq_nonneg (x 0), sq_nonneg (x 1), sq_nonneg (x 0 + x 1)]
  have h1 : x 1 = 0 := by nlinarith [sq_nonneg (x 0), sq_nonneg (x 1), sq_nonneg (x 0 + x 1)]
  exact hx (funext fun i => by fin_cases i <;> assumption)

open Factor in
theorem whitening_of_correlated_and_uncorrelated :
    (∃ noise, Noise.ofCovariance correlated = .ok noise ∧
      ∃ w, noise.whiten spread = .ok w ∧ w.coordinates 2 ⬝ᵥ w.coordinates 2 =
        spread.coordinates 2 ⬝ᵥ (correlated.matrix 2)⁻¹.mulVec (spread.coordinates 2)) ∧
    ∃ noise, Noise.ofCovariance uncorrelated = .ok noise ∧
      Indistinct (weighed (C := Catalogue) .prior [⟨.real 2, 0⟩] (.leaf (.zeros [2])) noise)
        (weighed .prior [⟨.real 2, 0⟩] (.leaf (.zeros [2])) (Noise.ofVariances spread))
        [⟨.leaf spread, .clamped⟩] := by
  constructor
  · obtain ⟨noise, hnoise, h⟩ := (Noise.whitening_of_covariance (n := 2) rfl).1 correlated_posDef
    obtain ⟨w, hw, -, hnorm⟩ := h spread rfl
    exact ⟨noise, hnoise, w, hw, hnorm⟩
  · obtain ⟨noise, hnoise, -, h⟩ :=
      (Noise.whitening_of_covariance (n := 2) rfl).2 spread rfl spread_pos uncorrelated_eq
    exact ⟨noise, hnoise, (h Catalogue ℕ .prior _ _ _ (.inl rfl)).2 (.prior rfl rfl rfl rfl)⟩

end LeastSquares
