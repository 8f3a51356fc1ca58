import LeastSquares.Proofs.Array.Wider
import LeastSquares.Proofs.Factor.Deposit
import LeastSquares.Proofs.Factor.Growth
import LeastSquares.Proofs.Value.Homomorphism

/-!
# Relative motions in reals

Where factors are stacked, an array of whole numbers becomes one of scalars if another factor of the group
has scalars there. A factor of a relative motion does not notice: it computes in scalars anyway. So such
a factor is known by its real form, and a factor whose label chooses the motion stands for the one
with the chosen motion.
-/

namespace LeastSquares

section Values

variable {β γ : Type} [Scalar β] [Scalar γ]

theorem Block.mapReals_cast (φ : ScalarHom β γ) (b : Block β) :
    (b.cast .real).mapReals φ = (b.mapReals φ).cast .real :=
  congrArg Block.reals (b.toReals_map φ).symm

/-- The elements of a group are their parameters as scalars. -/
theorem Value.group?_cast (v : Value β) : group? (v.map (Block.cast .real)) = group? v := by
  match v with
  | .node (.group g) [.leaf b] => rfl
  | .leaf _ | .absent | .node (.group _) [] => rfl
  | .node (.group _) [.absent] | .node (.group _) [.node ..] => rfl
  | .node (.group _) (c :: _ :: _) => cases c <;> rfl
  | .node .tuple _ | .node .list _ | .node (.fields _) _ => rfl
  | .node .fullNoise _ | .node .diagonalNoise _ => rfl

theorem Value.betweenResidual_cast (a b expected : Value β) :
    a.betweenResidual b (expected.map (Block.cast .real)) = a.betweenResidual b expected := by
  unfold betweenResidual
  rw [group?_cast]

theorem Value.betweenResidual_reals {a b expected : Value β} {r : Block β}
    (h : a.betweenResidual b expected = .ok r) : ∃ t, r = .reals t := by
  unfold betweenResidual at h
  obtain ⟨p, -, h⟩ := Checked.bind_eq_ok h
  obtain ⟨q, -, h⟩ := Checked.bind_eq_ok h
  obtain ⟨k, -, h⟩ := Checked.bind_eq_ok h
  dsimp only at h
  split at h
  · cases h
  · obtain ⟨_, -, h⟩ := Checked.bind_eq_ok h
    obtain ⟨_, -, h⟩ := Checked.bind_eq_ok h
    obtain ⟨t, -, h⟩ := Checked.bind_eq_ok h
    exact ⟨t, (Except.ok.inj h).symm⟩

namespace Noise

/-- The noise model with its root in scalars. -/
def inReals : Noise β → Noise β
  | full root => full (root.cast .real)
  | diagonal root => diagonal (root.cast .real)

theorem ofTree?_cast (v : Value β) :
    ofTree? (v.map (Block.cast .real)) = (ofTree? v).map inReals := by
  match v with
  | .node .fullNoise [.leaf _] | .node .diagonalNoise [.leaf _] => rfl
  | .leaf _ | .absent | .node .fullNoise [] | .node .diagonalNoise [] => rfl
  | .node .fullNoise [.absent] | .node .fullNoise [.node ..] => rfl
  | .node .diagonalNoise [.absent] | .node .diagonalNoise [.node ..] => rfl
  | .node .fullNoise (c :: _ :: _) | .node .diagonalNoise (c :: _ :: _) => cases c <;> rfl
  | .node .tuple _ | .node .list _ | .node (.fields _) _ | .node (.group _) _ => rfl

/-- Scalars are weighed by scalars. -/
theorem whiten_inReals (n : Noise β) (t : Tensor β) : n.inReals.whiten (.reals t) = n.whiten (.reals t) := by
  cases n with
  | full root => rfl
  | diagonal root =>
    have hshape : (root.cast .real).shape = root.shape := Block.shape_cast root .real
    have hmul : ∀ b : Block β, b.mul? (.reals t) =
        (Tensor.zipWith? (· * ·) b.toReals t).map Block.reals := fun b =>
      Block.arith?_of_real (Block.join_real_right b.kind)
    show (require .residualShape ((Block.reals t).shape = (root.cast .real).shape) >>= fun _ =>
      fitting ((root.cast .real).mul? (.reals t))) = _
    rw [hmul, hshape, whiten, hmul]
    rfl

/-- The shape of the residuals that a noise model weighs, by the shape of its root. -/
def weighedShape : Tree Shape → Option Shape
  | .node .fullNoise [.leaf s] => s.head?.map ([·])
  | .node .diagonalNoise [.leaf s] => some s
  | _ => none

theorem weighedShape_of_ofTree? {v : Value β} {n : Noise β} (h : ofTree? v = some n) {b r : Block β}
    (hr : n.whiten b = .ok r) : weighedShape (v.map Block.shape) = some r.shape := by
  unfold ofTree? at h
  split at h
  next root =>
    cases h
    obtain ⟨u, hu, rfl⟩ := Option.map_eq_some_iff.1 (fitting_eq_ok hr)
    unfold Tensor.mulVec? at hu
    split at hu
    next m k l hroot _ =>
      obtain ⟨extent, -, hu⟩ := Option.bind_eq_some_iff.1 hu
      cases hu
      rw [Block.shape_toReals] at hroot
      show Option.map _ root.shape.head? = _
      rw [hroot]
      rfl
    next => cases hu
  next root =>
    cases h
    obtain ⟨_, hshape, hr⟩ := Checked.bind_eq_ok hr
    have hshape : b.shape = root.shape := by
      unfold require at hshape
      split at hshape
      next h => exact of_decide_eq_true h
      next => cases hshape
    have hjoint := Block.shape_arith? (fitting_eq_ok hr)
    rw [hshape, Shape.joint_self] at hjoint
    exact congrArg some hjoint.symm
  next => cases h

end Noise

end Values

namespace Factor

section Fields

variable {C ι β γ : Type} {f : Factor C ι β}

@[simp] theorem handles_mapFields (h : β → γ) (f : Factor C ι β) :
    (f.mapFields h).handles = f.handles := by
  simp [mapFields, map]

theorem mapFields_mapFields {δ : Type} (g : β → γ) (h : γ → δ) (f : Factor C ι β) :
    (f.mapFields g).mapFields h = f.mapFields fun b => h (g b) := by
  simp [mapFields, map, Function.comp_def, Tree.map_map]

end Fields

/-! ## The real form -/

section RealForm

variable {C ι α : Type} [FactorFamily C] [Scalar α] {f : Factor C ι (Block α)}

omit [FactorFamily C] in
/-- The factor with its arrays as arrays of scalars. -/
def inReals (f : Factor C ι (Block α)) : Factor C ι (Block α) := f.mapFields (Block.cast .real)

omit [FactorFamily C] in
theorem still_inReals (f : Factor C ι (Block α)) : f.inReals.still = f.still.inReals := by
  unfold still inReals
  rw [mapFields_mapFields, mapFields_mapFields]
  exact congrArg f.mapFields (funext fun b => b.mapReals_cast Traced.constHom)

omit [FactorFamily C] in
theorem betweenError_inReals (f : Factor C ι (Block α)) (values : List (Found α)) :
    f.inReals.betweenError values = f.betweenError values := by
  obtain ⟨kind, handles, fields⟩ := f
  match fields, values with
  | [expected, noise], [a, b] =>
    show (fitting (Noise.ofTree? (noise.map (Block.cast .real))) >>= fun noise =>
      a.value.betweenResidual b.value (expected.map (Block.cast .real)) >>= noise.whiten) =
        (fitting (Noise.ofTree? noise) >>= fun noise =>
          a.value.betweenResidual b.value expected >>= noise.whiten)
    rw [Noise.ofTree?_cast, fitting_map, Checked.map_bind, Value.betweenResidual_cast]
    refine bind_congr fun noise => ?_
    cases hresidual : a.value.betweenResidual b.value expected with
    | error e => rfl
    | ok r =>
      obtain ⟨t, rfl⟩ : ∃ t, r = .reals t := Value.betweenResidual_reals hresidual
      exact noise.whiten_inReals t
  | [], _ | [_], _ | _ :: _ :: _ :: _, _ => rfl
  | [_, _], [] | [_, _], [_] | [_, _], _ :: _ :: _ :: _ => rfl

/-- A factor of a relative motion has the residual of its real form. -/
theorem residual_inReals (hkind : f.kind = .between) (values : List (Found α)) :
    f.inReals.residual values = f.residual values := by
  have hresidual : ∀ g : Factor C ι (Block α), g.kind = .between →
      g.residual values = g.betweenError values := by
    rintro ⟨kind, handles, fields⟩ hkind
    obtain rfl : kind = .between := hkind
    rfl
  rw [hresidual f hkind, hresidual f.inReals hkind, betweenError_inReals]

theorem error_inReals (hkind : f.kind = .between) (values : List (Found α)) :
    f.inReals.error values = f.error values := by
  have herror : ∀ g : Factor C ι (Block α), g.kind = .between →
      g.error values = g.residual values >>= halfSquaredNorm := by
    rintro ⟨kind, handles, fields⟩ hkind
    obtain rfl : kind = .between := hkind
    rfl
  rw [herror f hkind, herror f.inReals hkind, residual_inReals hkind]

omit [FactorFamily C] in
theorem types_inReals (f : Factor C ι (Block α)) : f.inReals.types = f.types := by
  rw [types, inReals, handles_mapFields, types]

omit [FactorFamily C] in
theorem inputs_inReals (f : Factor C ι (Block α)) : f.inReals.inputs = f.inputs := by
  rw [inputs, tangentDims, types_inReals]
  rfl

omit [FactorFamily C] in
theorem movingValues_inReals (f : Factor C ι (Block α)) (values : List (Found α)) :
    f.inReals.movingValues values = f.movingValues values := by
  rw [movingValues, inputs_inReals, movingValues]

omit [FactorFamily C] in
theorem tangentSize_inReals (f : Factor C ι (Block α)) : f.inReals.tangentSize = f.tangentSize := by
  rw [tangentSize, tangentDims, types_inReals]
  rfl

theorem errorGradient_inReals (hkind : f.kind = .between) (values : List (Found α)) :
    f.inReals.errorGradient values = f.errorGradient values := by
  unfold errorGradient
  rw [movingValues_inReals, still_inReals, inputs_inReals, tangentSize_inReals]
  exact bind_congr fun moving => by rw [error_inReals (f := f.still) hkind]

theorem linearizing_inReals (hkind : f.kind = .between) (values : List (Found α)) :
    f.inReals.linearizing values = f.linearizing values := by
  have hhandles : f.inReals.handles = f.handles := handles_mapFields ..
  unfold linearizing
  rw [movingValues_inReals, still_inReals, inputs_inReals, tangentSize_inReals, hhandles]
  exact bind_congr fun moving => by rw [residual_inReals (f := f.still) hkind]

omit [FactorFamily C] in
/-- The shape of the residual is told by the shapes of the arrays. -/
theorem weighedShape_of_betweenError {values : List (Found α)} {r : Block α}
    (h : f.betweenError values = .ok r) : ∃ expected noise, f.fields = [expected, noise] ∧
      Noise.weighedShape (noise.map Block.shape) = some r.shape := by
  unfold betweenError at h
  split at h
  next expected noise a b hfields =>
    obtain ⟨n, hn, h⟩ := Checked.bind_eq_ok h
    obtain ⟨residual, hresidual, h⟩ := Checked.bind_eq_ok h
    exact ⟨expected, noise, hfields, Noise.weighedShape_of_ofTree? (fitting_eq_ok hn) h⟩
  next => cases h

end RealForm

/-! ## Factors among others -/

section Widened

variable {C α : Type} [Scalar α] {g g' : FactorStack C α}

/-- The arrays of the fields of a widened factor. -/
theorem Widens.fields (h : g.Widens g') :
    List.Forall₂ (fun b b' : Block α => ∃ k, Kind.join k b.kind = k ∧ b' = b.cast k)
      (Tree.leaves.all g.fields) (Tree.leaves.all g'.fields) := by
  have hleaves := h.leaves
  rw [leaves_eq, leaves_eq] at hleaves
  have hdrop := List.forall₂_drop_append _ _ _ hleaves
  rwa [show (g'.handles.map (·.index)).length = (g.handles.map (·.index)).length by rw [h.handles],
    List.drop_left] at hdrop

/-- A factor keeps its real form among others. -/
theorem Widens.inReals_eq (h : g.Widens g') : g'.inReals = g.inReals := by
  have hskeleton : g'.fields.map Tree.skeleton = g.fields.map Tree.skeleton :=
    congrArg (·.2.2) h.frame
  have hfields : ∀ f : FactorStack C α, f.inReals.fields = f.fields.map (Tree.map (Block.cast .real)) :=
    fun _ => rfl
  have hsame : g'.inReals.fields = g.inReals.fields := by
    rw [hfields, hfields, ← Tree.map_all_eq, ← Tree.map_all_eq]
    refine Tree.eq_of_leaves_all _ _ ?_ ?_
    · simpa [Tree.map_all_eq, Function.comp_def] using hskeleton
    · have hleaves : ∀ cs : List (Tree (Block α)), Tree.leaves.all (Tree.map.all (Block.cast .real) cs) =
          (Tree.leaves.all cs).map (Block.cast .real) := fun cs =>
        Tree.leaves_map (Block.cast .real) (.node .list cs)
      rw [hleaves, hleaves, eq_comm, ← List.forall₂_eq_eq_eq, List.forall₂_map_left_iff,
        List.forall₂_map_right_iff]
      refine h.fields.imp fun b b' hb => ?_
      obtain ⟨k, hk, rfl⟩ := hb
      exact (Block.cast_cast hk rfl).symm
  have hhandles : g'.inReals.handles = g.inReals.handles := by
    rw [inReals, inReals, handles_mapFields, handles_mapFields, h.handles]
  have hkind : g'.inReals.kind = g.inReals.kind := congrArg (·.1) h.frame
  exact Factor.mk.injEq .. |>.mpr ⟨hkind, hhandles, hsame⟩

end Widened

/-! ## Factors that stand for others -/

section Stands

variable {C α : Type} [FactorFamily C] [Scalar α] {r p : FactorStack C α} {read : Reader α}

/-- What the factor comes to at the values that are read, another one comes to as well: its error, what
it contributes to the gradient, and its linear factor. -/
structure Stands (read : Reader α) (r p : FactorStack C α) : Prop where
  error : (r.values read >>= r.error) = p.values read >>= p.error
  contribution : r.contribution read = p.contribution read
  linearized : (r.values read >>= r.linearized) = p.values read >>= p.linearized

omit [FactorFamily C] in
theorem values_inReals (f : FactorStack C α) (read : Reader α) : f.inReals.values read = f.values read := by
  rw [values, inReals, handles_mapFields, values]

theorem component_between {f : FactorStack C α} (hkind : f.kind = .between) (values : List (Found α)) :
    f.component values = f.checkDifferentiable >>= fun _ => .ok (f, values) :=
  component_eq ⟨by rw [hkind]; simp, by rw [hkind]; simp⟩ (by rw [hkind]; simp [FactorClass.rank]) values

theorem checkDifferentiable_inReals (f : FactorStack C α) :
    f.inReals.checkDifferentiable = f.checkDifferentiable := by
  rw [checkDifferentiable, types_inReals]
  rfl

theorem linearized_between {f : FactorStack C α} (hkind : f.kind = .between) (values : List (Found α)) :
    f.linearized values = f.checkDifferentiable >>= fun _ => f.linearizing values := by
  unfold linearized
  rw [hkind]
  show (f.component values >>= fun p => p.1.linearizing p.2) = _
  rw [component_between hkind, bind_assoc]
  rfl

/-- A relative motion stands for its real form. -/
theorem stands_inReals (hkind : r.kind = .between) (read : Reader α) : Stands read r r.inReals where
  error := by
    rw [values_inReals]
    exact bind_congr fun values => (error_inReals hkind values).symm
  contribution := by
    unfold contribution
    rw [values_inReals]
    refine bind_congr fun values => ?_
    rw [component_between hkind, component_between (f := r.inReals) hkind, checkDifferentiable_inReals,
      bind_assoc, bind_assoc]
    refine bind_congr fun _ => ?_
    simp only [Checked.ok_bind, errorGradient_inReals hkind]
    rw [inReals, handles_mapFields]
  linearized := by
    rw [values_inReals]
    refine bind_congr fun values => ?_
    rw [linearized_between hkind, linearized_between (f := r.inReals) hkind, checkDifferentiable_inReals]
    exact bind_congr fun _ => (linearizing_inReals hkind values).symm

theorem Stands.trans {q : FactorStack C α} (h : Stands read r p) (hq : Stands read p q) :
    Stands read r q :=
  ⟨h.error.trans hq.error, h.contribution.trans hq.contribution, h.linearized.trans hq.linearized⟩

/-- A relative motion that a label chooses stands for the factor with that motion, which does not know of
the label. -/
theorem stands_chosen {start label stop : Handle (Block α)} {movements noise movement : Value α}
    (hr : r = ⟨.switchingBetween, [start, label, stop], [movements, noise]⟩) {a l b : Found α}
    (ha : read start.inStack = .ok a) (hl : read label.inStack = .ok l)
    (hb : read stop.inStack = .ok b) {index : Block α} (hindex : l.array = .ok index)
    (hmovement : Value.take .clamped movements index = .ok movement)
    (hstart : start.type.isDifferentiable = true) (hstop : stop.type.isDifferentiable = true) :
    Stands read r ⟨.between, [start, stop], [movement, noise]⟩ := by
  generalize hp : (⟨.between, [start, stop], [movement, noise]⟩ : FactorStack C α) = p
  have hkind : p.kind = .between := hp ▸ rfl
  have hvalues : r.values read = .ok [a, l, b] := by simp [hr, values, ha, hl, hb]
  have hends : p.values read = .ok [a, b] := by simp [← hp, values, ha, hb]
  have hchosen : r.chosenBetween [a, l, b] = .ok (p, [a, b]) := by
    rw [hr]
    unfold chosenBetween
    simp only [hindex, hmovement, Checked.ok_bind, hp]
    rfl
  have hcomponent : r.component [a, l, b] = r.chosenBetween [a, l, b] := by rw [hr]; rfl
  have hdiff : p.checkDifferentiable = .ok () :=
    checkDifferentiable_eq_ok.2 (by simp [← hp, types, hstart, hstop])
  have hself : p.component [a, b] = .ok (p, [a, b]) := by
    rw [component_between hkind, hdiff, Checked.ok_bind]
  refine ⟨?_, ?_, ?_⟩
  · have herror : r.error [a, l, b] =
        (r.chosenBetween [a, l, b] >>= fun q => q.1.betweenError q.2) >>= halfSquaredNorm := by
      rw [hr]
      rfl
    rw [hvalues, hends, Checked.ok_bind, Checked.ok_bind, herror, hchosen, Checked.ok_bind, ← hp]
    rfl
  · unfold contribution
    simp only [hvalues, hends, Checked.ok_bind, hcomponent, hchosen, hself]
  · have hlinearized : r.linearized [a, l, b] =
        r.component [a, l, b] >>= fun q => q.1.linearizing q.2 := by
      rw [hr]
      rfl
    rw [hvalues, hends, Checked.ok_bind, Checked.ok_bind, linearized_between hkind, hdiff,
      Checked.ok_bind, hlinearized, hcomponent, hchosen, Checked.ok_bind]

end Stands

end Factor

end LeastSquares
