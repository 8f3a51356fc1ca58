import LeastSquares.Proofs.Factor.Gradient
import LeastSquares.Proofs.Manifold.Relative
import LeastSquares.Proofs.Manifold.Rest
import LeastSquares.Proofs.Value.Homomorphism

/-!
# Factors of relative motions

A factor between two elements of a group sees their relative motion only. So its residual, its error and
the gradient of its error stay the same where both elements are multiplied from the left by one motion.
For the gradient the relative motion is computed over traced numbers; it has the same values and slopes
there, though not the same traces, and what is computed from it has the same values and slopes in turn.
-/

namespace LeastSquares

/-! ## Single elements -/

namespace Tensor

variable {β : Type} [Inhabited β]

theorem entry_vector (xs : List β) : (vector xs.toArray).entry = listed xs := by
  funext k
  simp [entry, vector, listed, List.getD]

theorem ofRows_single {width : Nat} {rows : Nat → List β} (h : (rows 0).length = width) :
    ofRows [] width rows = vector (rows 0).toArray := by
  have hshape : (vector (rows 0).toArray).shape = [width] := by
    rw [← h]
    rfl
  refine ext_entry hshape.symm fun k hk => ?_
  rw [entry_ofRows_single (by simpa [ofRows] using hk), entry_vector]
  rfl

end Tensor

namespace LieGroup

variable {β : Type} [Scalar β] (g : LieGroup)

@[simp] theorem length_mulRow (a b : Nat → β) : (g.mulRow a b).length = g.paramDim := by cases g <;> rfl

@[simp] theorem length_inverseRow (a : Nat → β) : (g.inverseRow a).length = g.paramDim := by
  cases g <;> rfl

@[simp] theorem length_expRow (d : Nat → β) : (g.expRow d).length = g.paramDim := by cases g <;> rfl

/-- A product reads the parameters of both elements. -/
theorem mulRow_congr {a a' b b' : Nat → β} (ha : ∀ i, i < g.paramDim → a i = a' i)
    (hb : ∀ i, i < g.paramDim → b i = b' i) : g.mulRow a b = g.mulRow a' b' := by
  cases g <;> simp only [paramDim] at ha hb <;>
    simp [mulRow, SO2.read, SE2.read, SO3.read, SE3.read, ha, hb]

theorem inverseRow_congr {a a' : Nat → β} (ha : ∀ i, i < g.paramDim → a i = a' i) :
    g.inverseRow a = g.inverseRow a' := by
  cases g <;> simp only [paramDim] at ha <;>
    simp [inverseRow, SO2.read, SE2.read, SO3.read, SE3.read, ha]

theorem expRow_congr {d d' : Nat → β} (hd : ∀ i, i < g.tangentDim → d i = d' i) :
    g.expRow d = g.expRow d' := by
  cases g <;> simp only [tangentDim] at hd <;>
    simp [expRow, Twist2.read, Vec3.read, Twist3.read, hd]

variable {g} {a b d p q : Tensor β}

/-- The product of two single elements. -/
theorem mul?_single (ha : a.shape = [g.paramDim]) (hb : b.shape = [g.paramDim]) :
    g.mul? a b = some (.vector (g.mulRow a.entry b.entry).toArray) := by
  have hlead : ∀ {t : Tensor β}, t.shape = [g.paramDim] → t.lead = [] ∧ t.width = g.paramDim := by
    intro t ht
    rw [Tensor.lead, Tensor.width, ht]
    exact ⟨rfl, rfl⟩
  obtain ⟨halead, hawidth⟩ := hlead ha
  obtain ⟨hblead, hbwidth⟩ := hlead hb
  have hfits : g.fitsLeft g.paramDim = true ∧ g.fitsRight g.paramDim = true := by
    cases g <;> decide
  rw [mul?, if_pos ⟨by simp [ha], by simp [hb], by rw [hawidth]; exact hfits.1,
    by rw [hbwidth]; exact hfits.2⟩, Tensor.zipRows?, halead, hblead]
  show some (Tensor.ofRows [] g.paramDim fun k => g.mulRow (a.coordinate [] k) (b.coordinate [] k)) = _
  refine congrArg some ((Tensor.ofRows_single (g.length_mulRow ..)).trans ?_)
  rw [g.mulRow_congr (fun i hi => Tensor.coordinate_single ha 0 hi)
    fun i hi => Tensor.coordinate_single hb 0 hi]

/-- The inverse of a single element. -/
theorem inverse?_single (ha : a.shape = [g.paramDim]) :
    g.inverse? a = some (.vector (g.inverseRow a.entry).toArray) := by
  have hlead : a.lead = [] := by rw [Tensor.lead, ha]; rfl
  have hwidth : a.width = g.paramDim := by rw [Tensor.width, ha]; rfl
  have hfits : g.fitsInverse g.paramDim = true := by cases g <;> decide
  rw [inverse?, if_pos (by rw [hwidth]; exact hfits), Tensor.mapRows, hlead]
  refine congrArg some ((Tensor.ofRows_single (g.length_inverseRow ..)).trans ?_)
  rw [g.inverseRow_congr fun i hi => Tensor.coordinate_single ha 0 hi]

theorem shape_vector_mulRow (x y : Nat → β) :
    (Tensor.vector (g.mulRow x y).toArray).shape = [g.paramDim] := by simp [Tensor.vector]

/-- A single element moved along a single tangent vector. -/
theorem moved?_single (ha : a.shape = [g.paramDim]) (hd : d.shape = [g.tangentDim]) :
    g.moved? a d = some (.vector (g.mulRow a.entry (listed (g.expRow d.entry))).toArray) := by
  have hlead : d.lead = [] := by rw [Tensor.lead, hd]; rfl
  have hwidth : d.width = g.tangentDim := by rw [Tensor.width, hd]; rfl
  have hexp : g.exp? d = some (.vector (g.expRow d.entry).toArray) := by
    rw [exp?, if_pos ⟨by simp [hd], hwidth⟩, Tensor.mapRows, hlead]
    refine congrArg some ((Tensor.ofRows_single (g.length_expRow ..)).trans ?_)
    rw [g.expRow_congr fun i hi => Tensor.coordinate_single hd 0 hi]
  rw [moved?, hexp]
  refine (mul?_single ha (by simp [Tensor.vector])).trans ?_
  rw [Tensor.entry_vector]

/-- The relative motion of two single elements. -/
theorem relative?_single (hp : p.shape = [g.paramDim]) (hq : q.shape = [g.paramDim]) :
    g.relative? p q = some (.vector (g.relativeRow p.entry q.entry).toArray) := by
  rw [relative?, inverse?_single hp]
  refine (mul?_single (by simp [Tensor.vector]) hq).trans ?_
  rw [Tensor.entry_vector, relativeRow]

end LieGroup

/-! ## Elements multiplied from the left -/

namespace Value

section Residual

variable {α : Type} [LinearOrder α] [ExactScalar α] {g : LieGroup} {G : Nat → α} {a a' b b' : Value α}

/-- The second value is the first, a single element of a group, multiplied from the left. -/
def Carried (g : LieGroup) (G : Nat → α) (a a' : Value α) : Prop :=
  ∃ p : Tensor α, p.shape = [g.paramDim] ∧ a = .ofGroup g p ∧
    a' = .ofGroup g (.vector (g.mulRow G p.entry).toArray)

theorem betweenResidual_carried (hG : g.squaredNorm G = Scalar.one) (ha : Carried g G a a')
    (hb : Carried g G b b') (expected : Value α) :
    a'.betweenResidual b' expected = a.betweenResidual b expected := by
  obtain ⟨p, hp, rfl, rfl⟩ := ha
  obtain ⟨q, hq, rfl, rfl⟩ := hb
  have hrow := @LieGroup.relativeRow_mulRow α (ExactScalar.ringScalar α) g G hG p.entry q.entry
  refine (betweenResidual_eq rfl rfl (LieGroup.relative?_single (LieGroup.shape_vector_mulRow ..)
    (LieGroup.shape_vector_mulRow ..))).trans ?_
  rw [Tensor.entry_vector, Tensor.entry_vector, hrow]
  exact (betweenResidual_eq rfl rfl (LieGroup.relative?_single hp hq)).symm

end Residual

end Value

namespace Factor

section Motion

variable {C ι β γ : Type} [FactorFamily C] [Scalar β] [Scalar γ]

/-- The error of a factor between two elements of a group, from their relative motion. -/
def motionError (f : Factor C ι (Block β)) (g : LieGroup) (relative : Tensor β) : Checked (Block β) :=
  match f.fields with
  | [expected, noise] => do
    let noise ← fitting (Noise.ofTree? noise)
    halfSquaredNorm (← noise.whiten (← Value.motionResidual g relative expected))
  | _ => misfit

omit [FactorFamily C] in
theorem motionError_map (φ : ScalarHom β γ) (f : Factor C ι (Block β)) (g : LieGroup)
    (relative : Tensor β) : (f.mapFields (Block.mapReals φ)).motionError g (relative.map φ) =
      (f.motionError g relative).map (Block.mapReals φ) := by
  obtain ⟨kind, handles, fields⟩ := f
  match fields with
  | [expected, noise] =>
    show (fitting (Noise.ofTree? (noise.map (Block.mapReals φ))) >>= fun noise =>
      Value.motionResidual g (relative.map φ) (expected.map (Block.mapReals φ)) >>= fun r =>
        noise.whiten r >>= halfSquaredNorm) = _
    simp only [motionError, Noise.ofTree?_map, fitting_map, Checked.map_bind, Checked.bind_map,
      Value.motionResidual_map, Noise.whiten_map, halfSquaredNorm_map]
  | [] | [_] | _ :: _ :: _ :: _ => rfl

theorem error_between {f : Factor C ι (Block β)} (hkind : f.kind = .between) {g : LieGroup}
    {x y : Found β} {p q relative : Tensor β} (hx : x.value.group? = some (g, p))
    (hy : y.value.group? = some (g, q)) (hrelative : g.relative? p q = some relative) :
    f.error [x, y] = f.motionError g relative := by
  obtain ⟨kind, handles, fields⟩ := f
  obtain rfl : kind = .between := hkind
  match fields with
  | [expected, noise] =>
    show ((fitting (Noise.ofTree? noise) >>= fun noise =>
      x.value.betweenResidual y.value expected >>= fun r => noise.whiten r) >>= halfSquaredNorm) = _
    simp only [motionError, bind_assoc, Value.betweenResidual_eq hx hy hrelative]
  | [] | [_] | _ :: _ :: _ :: _ => rfl

end Motion

section Gradient

variable {C ι α : Type} [FactorFamily C] [LinearOrder α] [ExactScalar α] {g : LieGroup} {G : Nat → α}
  {f : Factor C ι (Block α)} {x x' y y' : Found α}

/-- A single element that is moved along inputs. -/
def movedElement (g : LieGroup) (p : Tensor α) (start : Nat) : Tensor (Traced α) :=
  .vector (g.mulRow (p.map Traced.const).entry
    (listed (g.expRow fun j => .input (start + j) Scalar.zero))).toArray

omit [FactorFamily C] in
/-- Two elements of one group are moved along the inputs of a factor. -/
theorem movingValues_pair (htypes : f.types = [.lie g, .lie g]) {p q : Tensor α}
    (hp : p.shape = [g.paramDim]) (hq : q.shape = [g.paramDim]) (hx : x.value = .ofGroup g p)
    (hy : y.value = .ofGroup g q) : f.movingValues [x, y] =
      .ok [⟨.ofGroup g (movedElement g p 0), .clamped⟩,
        ⟨.ofGroup g (movedElement g q g.tangentDim), .clamped⟩] := by
  have hmoved : ∀ {r : Tensor α} (start : Nat), r.shape = [g.paramDim] →
      (VariableType.lie g).retract (Value.still (.ofGroup g r))
        (.ofBlock (displacement g.tangentDim start)) = .ok (.ofGroup g (movedElement g r start)) := by
    intro r start hr
    show fitting ((g.moved? (r.map Traced.const) (.generate [g.tangentDim] fun j =>
      .input (start + j) Scalar.zero)).map (Value.ofGroup g)) = _
    rw [LieGroup.moved?_single (by simpa using hr) (by simp)]
    refine congrArg (fun l => Except.ok (Value.ofGroup g (.vector (g.mulRow _ (listed l)).toArray))) ?_
    exact g.expRow_congr fun i hi => Tensor.entry_generate (by simpa using hi)
  have hinputs : f.inputs = [(.lie g, 0), (.lie g, g.tangentDim)] := by
    simp [inputs, tangentDims, htypes, offsets, VariableType.tangentDim]
  unfold movingValues
  rw [hinputs, List.zip_cons_cons, List.zip_cons_cons, List.zip_nil_left, List.mapM_cons,
    List.mapM_cons, List.mapM_nil]
  simp only [hx, hy, VariableType.tangentDim, hmoved _ hp, hmoved _ hq, Checked.ok_bind,
    Checked.pure_eq_ok]

/-- The values and slopes of the relative motion of two elements that are moved along inputs are those
of a relative motion over such pairs. -/
theorem relativeRow_jet (p q : Tensor α) (start stop : Nat) :
    (g.relativeRow (movedElement g p start).entry (movedElement g q stop).entry).map Traced.jet =
      g.relativeRow (β := Jet α)
        (listed (g.mulRow (fun i => (Traced.const (p.entry i)).jet)
          (listed (g.expRow fun j => (Traced.input (start + j) Scalar.zero).jet))))
        (listed (g.mulRow (fun i => (Traced.const (q.entry i)).jet)
          (listed (g.expRow fun j => (Traced.input (stop + j) Scalar.zero).jet)))) := by
  have hmoved : ∀ (r : Tensor α) (start : Nat),
      (fun i => Traced.jetHom ((movedElement g r start).entry i)) = listed (g.mulRow
        (fun i => (Traced.const (r.entry i)).jet)
        (listed (g.expRow fun j => (Traced.input (start + j) Scalar.zero).jet))) := by
    intro r start
    have hconst : (r.map Traced.const).entry = fun i => Traced.const (r.entry i) :=
      funext fun i => Tensor.entry_image Traced.constHom r i
    rw [movedElement, Tensor.entry_vector, ← listed_map, ← g.mulRow_map, hconst,
      ← listed_map Traced.jetHom, ← g.expRow_map]
    rfl
  refine (g.relativeRow_map Traced.jetHom _ _).symm.trans ?_
  rw [hmoved, hmoved]

/-- The relative motion of two elements that are moved along the inputs of a factor. -/
def movedRelative (g : LieGroup) (p q : Tensor α) : Tensor (Traced α) :=
  .vector (g.relativeRow (movedElement g p 0).entry (movedElement g q g.tangentDim).entry).toArray

omit [FactorFamily C] in
/-- A motion by which both elements are multiplied changes no value and no slope. -/
theorem movedRelative_carried (hG : g.squaredNorm G = Scalar.one) (p q : Tensor α) :
    (movedRelative g (.vector (g.mulRow G p.entry).toArray)
      (.vector (g.mulRow G q.entry).toArray)).map Traced.jet = (movedRelative g p q).map Traced.jet := by
  -- numbers that depend on no input, as pairs
  let still : ScalarHom α (Jet α) := Traced.jetHom.comp Traced.constHom
  have hvector : ∀ xs : List (Traced α), (Tensor.vector xs.toArray).map Traced.jet =
      .vector (xs.map Traced.jet).toArray := fun xs => by simp [Tensor.vector, Tensor.map]
  have hcarried : ∀ r : Tensor α,
      (fun i => (Traced.const ((Tensor.vector (g.mulRow G r.entry).toArray).entry i)).jet) =
        listed (g.mulRow (fun i => still (G i)) fun i => still (r.entry i)) := fun r => by
    rw [Tensor.entry_vector, g.mulRow_map still, listed_map]
    rfl
  have hunit : g.squaredNorm (fun i => still (G i)) = Scalar.one := by
    rw [g.squaredNorm_map, hG, still.map_one]
  rw [movedRelative, movedRelative, hvector, hvector, relativeRow_jet, relativeRow_jet, hcarried, hcarried,
    g.relativeRow_moved hunit]
  rfl

/-- The gradient, from the error over traced numbers as a function of the relative motion. -/
theorem errorGradient_between (hkind : f.kind = .between) (htypes : f.types = [.lie g, .lie g])
    {p q : Tensor α} (hp : p.shape = [g.paramDim]) (hq : q.shape = [g.paramDim])
    (hx : x.value = .ofGroup g p) (hy : y.value = .ofGroup g q) :
    f.errorGradient [x, y] = f.still.motionError g (movedRelative g p q) >>= fun error => .ok
      (f.inputs.map fun (type, start) => .reals (.generate [type.tangentDim] fun j =>
        (Traced.derivatives f.tangentSize [(error.value, Scalar.one)]).getD (start + j)
          Scalar.zero)) := by
  have hshape : ∀ (r : Tensor α) start, (movedElement g r start).shape = [g.paramDim] :=
    fun r start => LieGroup.shape_vector_mulRow ..
  unfold errorGradient
  rw [movingValues_pair htypes hp hq hx hy, Checked.ok_bind,
    error_between (f := f.still) hkind rfl rfl (LieGroup.relative?_single (hshape ..) (hshape ..))]
  rfl

/-- The gradient of the error does not see a motion by which both elements are multiplied. -/
theorem errorGradient_carried (hG : g.squaredNorm G = Scalar.one) (hkind : f.kind = .between)
    (htypes : f.types = [.lie g, .lie g]) (hx : Value.Carried g G x.value x'.value)
    (hy : Value.Carried g G y.value y'.value) :
    f.errorGradient [x', y'] = f.errorGradient [x, y] := by
  obtain ⟨p, hp, hx, hx'⟩ := hx
  obtain ⟨q, hq, hy, hy'⟩ := hy
  rw [errorGradient_between hkind htypes hp hq hx hy, errorGradient_between hkind htypes
    (LieGroup.shape_vector_mulRow ..) (LieGroup.shape_vector_mulRow ..) hx' hy']
  have hjets := (motionError_map Traced.jetHom f.still g _).symm.trans
    ((congrArg _ (movedRelative_carried hG p q)).trans (motionError_map Traced.jetHom f.still g _))
  refine (Checked.alike_of_map hjets.symm).bind_eq fun error' error herror => congrArg Except.ok ?_
  have hjet : error.value.jet = error'.value.jet :=
    (Block.value_map Traced.jetHom error).symm.trans
      ((congrArg Block.value herror.symm).trans (Block.value_map Traced.jetHom error'))
  refine List.map_congr_left fun t ht => congrArg Block.reals (Tensor.generate_congr fun j hj => ?_)
  have hj : j < t.1.tangentDim := by simpa using hj
  exact Traced.derivatives_of_jet hjet ((Nat.add_lt_add_left hj _).trans_le (f.inputs_le t ht)) _

end Gradient

end Factor

end LeastSquares
