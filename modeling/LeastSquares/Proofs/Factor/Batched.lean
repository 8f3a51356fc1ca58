import LeastSquares.Proofs.Buffer.Sum
import LeastSquares.Proofs.Factor.Wider
import LeastSquares.Graph.Bulk

/-!
# Classes that can be computed with in stacks

What a stack computes row by row, its factors compute by themselves, provided that their classes do not
look at how an array is kept, and that what has a shape has one that does not depend on numbers. All classes
of the library are like this; a class of a client promises it.
-/

namespace LeastSquares

open Checked (Matches)

variable {C α : Type} [DecidableEq C] [FactorFamily C] [Scalar α]

namespace Factor

/-- What a rule makes of a factor by itself it makes of the factor in a stack: the same numbers, in a kind
as wide. -/
def Steady (k : FactorClass C)
    (rule : {ι : Type} → Factor C ι (Block α) → List (Found α) → Checked (Block α)) : Prop :=
  ∀ {ι κ : Type} {f : Factor C ι (Block α)} {g : Factor C κ (Block α)} {values : List (Found α)}
    {r : Block α}, f.kind = k → f.Wider g → rule f values = .ok r →
      ∃ r', rule g (values.map Found.clamped) = .ok r' ∧ r.Wider r'

/-- Each handle of the factor, a row of a stack, names one variable. -/
def Single (f : FactorStack C α) : Prop := ∀ a ∈ f.handles, ∃ t : Tensor Int, a.index = .ints t ∧ t.shape = []

end Factor

/-- Factors of the class can be computed with in stacks. -/
structure FactorClass.Batched (α : Type) [Scalar α] (k : FactorClass C) : Prop where
  /-- A factor that has an error has a variable or an array. -/
  arrays : ∀ {ι : Type} {f : Factor C ι (Block α)} {values : List (Found α)} {e : Block α}, f.kind = k →
    f.error values = .ok e → f.handles ≠ [] ∨ Tree.leaves.all f.fields ≠ []
  error : k.hasResidual = false → Factor.Steady (α := α) k Factor.error
  residual : Factor.Steady (α := α) k Factor.residual
  /-- The shape of a residual is told by the shapes of the arrays of the factor and of the values. -/
  shape : ∀ {f g : FactorStack C α} {xs ys : List (Found α)} {r r' : Block α}, f.kind = k →
    f.map Block.shape Block.shape = g.map Block.shape Block.shape →
    xs.map (fun x => x.value.map Block.shape) = ys.map (fun y => y.value.map Block.shape) →
    f.residual xs = .ok r → g.residual ys = .ok r' → r'.shape = r.shape
  /-- The differentiable part connects some of the variables; of which types, does not depend on
  numbers. -/
  component : ∀ {f g part part' : FactorStack C α} {xs ys ws zs : List (Found α)}, f.kind = k →
    f.frame = g.frame → f.component xs = .ok (part, ws) → g.component ys = .ok (part', zs) →
    part'.types = part.types ∧ ∀ a ∈ part.handles, a ∈ f.handles
  /-- If the class linearises stacks by a rule of its own, it does so row by row. -/
  rule : ∀ {own : StackRule C}, Factor.stackRule? k = some @own →
    ∃ one : FactorStack C α → List (Found α) → Checked (FactorStack C α),
      (∀ f values l, one f values = .ok l → l.kind = .jacobian ∧ ∀ a ∈ l.handles, a ∈ f.handles) ∧
      ∀ (s : Store C α) (rows : List (FactorStack C α)) (F : FactorStack C α), F.kind = k →
        (∀ r ∈ rows, r.Single) → Factor.stack? rows = some F →
        Matches (fun G ls => G.rows = .ok ls) (F.values s.bulk >>= own F) (F.overRows s.bulk one)

/-! ## The classes of the library -/

namespace Factor

section Leaves

variable {ι : Type} {f : Factor C ι (Block α)} {values : List (Found α)} {r : Block α}

omit [DecidableEq C] [FactorFamily C] [Scalar α] in
theorem leaves_of_field {t : Value α} (ht : t ∈ f.fields) {b : Block α} (hb : t.leaves = [b]) :
    Tree.leaves.all f.fields ≠ [] := by
  have hall : ∀ cs : List (Value α), t ∈ cs → b ∈ Tree.leaves.all cs := by
    intro cs
    induction cs with
    | nil => nofun
    | cons c cs ih =>
      intro hmem
      rw [Tree.leaves.all, List.mem_append]
      obtain rfl | hmem := List.mem_cons.1 hmem
      · exact .inl (hb ▸ List.mem_singleton_self b)
      · exact .inr (ih hmem)
  exact List.ne_nil_of_mem (hall _ ht)

omit [Scalar α] in
theorem leaves_of_noise {v : Value α} {n : Noise α} (h : Noise.ofTree? v = some n) : ∃ b, v.leaves = [b] := by
  unfold Noise.ofTree? at h
  split at h
  next root => exact ⟨root, rfl⟩
  next root => exact ⟨root, rfl⟩
  next => cases h

omit [DecidableEq C] in
theorem leaves_of_residual (hclient : ∀ c, f.kind ≠ .client c) (h : f.residual values = .ok r) :
    Tree.leaves.all f.fields ≠ [] := by
  have hbetween : ∀ {f : Factor C ι (Block α)} {values r}, f.betweenError values = .ok r →
      ∃ expected noise b, f.fields = [expected, noise] ∧ noise.leaves = [b] := by
    intro f values r h
    unfold betweenError at h
    split at h
    next expected noise a b hfields =>
      obtain ⟨n, hn, -⟩ := Checked.bind_eq_ok h
      obtain ⟨b, hb⟩ := leaves_of_noise (fitting_eq_ok hn)
      exact ⟨expected, noise, b, hfields, hb⟩
    next => cases h
  unfold residual at h
  split at h
  next error _ hfields =>
    obtain ⟨image, -, h⟩ := Checked.bind_eq_ok h
    obtain ⟨b, hb, -⟩ := Checked.bind_eq_ok h
    exact leaves_of_field (t := error) (by simp [hfields]) (congrArg Tree.leaves (eq_leaf_of_array hb))
  next hkind =>
    unfold forward at h
    rw [hkind] at h
    split at h
    next hjacobian _ => cases hjacobian
    next scalar _ _ hfields =>
      obtain ⟨c, hc, -⟩ := Checked.bind_eq_ok h
      exact leaves_of_field (t := scalar) (by simp [hfields]) (congrArg Tree.leaves (eq_leaf_of_array hc))
    next c hc => cases hc
    next => cases h
  next mu noise _ _ hfields =>
    obtain ⟨type, -, h⟩ := Checked.bind_eq_ok h
    obtain ⟨n, hn, -⟩ := Checked.bind_eq_ok h
    obtain ⟨b, hb⟩ := leaves_of_noise (fitting_eq_ok hn)
    exact leaves_of_field (t := noise) (by simp [hfields]) hb
  next hkind =>
    obtain ⟨expected, noise, b, hfields, hb⟩ := hbetween h
    exact leaves_of_field (t := noise) (by simp [hfields]) hb
  next hkind =>
    obtain ⟨⟨part, ends⟩, hpart, h⟩ := Checked.bind_eq_ok h
    obtain ⟨expected, noise, b, hpartfields, hb⟩ := hbetween h
    unfold chosenBetween at hpart
    split at hpart
    next movements noise' _ _ _ _ hfields =>
      obtain ⟨i, -, hpart⟩ := Checked.bind_eq_ok hpart
      obtain ⟨movement, -, hpart⟩ := Checked.bind_eq_ok hpart
      cases hpart
      cases hpartfields
      exact leaves_of_field (t := noise) (by simp [hfields]) hb
    next => cases hpart
  next c hkind => exact absurd hkind (hclient c)
  next => cases h

end Leaves

omit [DecidableEq C] in
/-- The differentiable part of a factor of the library is the factor, or the relative motion that a label
chooses. -/
theorem component_library {f part : FactorStack C α} {values ws : List (Found α)}
    (hclient : ∀ c, f.kind ≠ .client c) (h : f.component values = .ok (part, ws)) :
    f.kind ≠ .switchingBetween ∧ part = f ∨ f.kind = .switchingBetween ∧
      ∃ start label stop, f.handles = [start, label, stop] ∧ part.handles = [start, stop] := by
  unfold component at h
  split at h
  next hkind =>
    unfold chosenBetween at h
    split at h
    next start label stop _ _ _ _ _ hhandles _ =>
      obtain ⟨i, -, h⟩ := Checked.bind_eq_ok h
      obtain ⟨movement, -, h⟩ := Checked.bind_eq_ok h
      cases h
      exact .inr ⟨hkind, start, label, stop, hhandles, rfl⟩
    next => cases h
  next c hkind => exact absurd hkind (hclient c)
  next hkind _ =>
    obtain ⟨_, -, h⟩ := Checked.bind_eq_ok h
    cases h
    exact .inl ⟨hkind, rfl⟩

end Factor

omit [DecidableEq C] in
theorem FactorClass.hasResidual_of_library {k : FactorClass C} (hk : ∀ c, k ≠ .client c) :
    k.hasResidual = true := by
  cases k with
  | client c => exact absurd rfl (hk c)
  | jacobian | scalarJacobian | prior | between | switchingBetween => rfl

/-- The error of a factor is kept in a stack, if its residual is. -/
theorem FactorClass.Batched.steady {α : Type} [LinearOrder α] [ExactScalar α]
    (whole : ∀ i, Scalar.wrap α i = i) {k : FactorClass C} (h : k.Batched α) :
    Factor.Steady (α := α) k Factor.error := by
  intro ι κ f g values e hkind hwider he
  cases hresidual : k.hasResidual with
  | false => exact h.error hresidual hkind hwider he
  | true =>
    have he : f.error values = .ok e := he
    rw [Factor.error_of_hasResidual (hkind ▸ hresidual)] at he
    obtain ⟨r, hr, he⟩ := Checked.bind_eq_ok he
    obtain ⟨r', hr', hwider'⟩ : ∃ r', g.residual (values.map Found.clamped) = .ok r' ∧ r.Wider r' :=
      h.residual hkind hwider hr
    refine ⟨e, ?_, .refl e⟩
    show g.error (values.map Found.clamped) = .ok e
    rw [Factor.error_of_hasResidual (hwider.kind ▸ hkind ▸ hresidual), hr', Checked.ok_bind,
      Factor.halfSquaredNorm_eq whole, hwider'.numbers_eq, ← Factor.halfSquaredNorm_eq whole, he]

/-- Factors of the library can be computed with in stacks. -/
theorem FactorClass.batched_of_library {α : Type} [LinearOrder α] [ExactScalar α]
    (whole : ∀ i, Scalar.wrap α i = i) {k : FactorClass C} (hk : ∀ c, k ≠ .client c) : k.Batched α where
  arrays := by
    intro ι f values e hkind he
    subst hkind
    rw [Factor.error_of_hasResidual (FactorClass.hasResidual_of_library hk)] at he
    obtain ⟨r, hr, -⟩ := Checked.bind_eq_ok he
    exact .inr (Factor.leaves_of_residual hk hr)
  error := by
    rw [FactorClass.hasResidual_of_library hk]
    exact nofun
  residual := fun hkind h hr => Factor.residual_wider whole h (hkind ▸ hk) hr
  shape := by
    intro f g xs ys r r' hkind hshapes hvalues hr hr'
    have hkinds : f.kind = g.kind := congrArg (·.kind) hshapes
    have hfields : f.fields.map (Tree.map Block.shape) = g.fields.map (Tree.map Block.shape) :=
      congrArg (·.fields) hshapes
    rw [Factor.shape_residual (hkind ▸ hk) hr, Factor.shape_residual (hkinds ▸ hkind ▸ hk) hr', hvalues,
      hkinds, hfields]
  component := by
    intro f g part part' xs ys ws zs hkind hframe hf hg
    have hkinds : f.kind = g.kind := congrArg (·.1) hframe
    have htypes : f.types = g.types := congrArg (·.2.1) hframe
    obtain ⟨hf', rfl⟩ | ⟨hf', start, label, stop, hhandles, hends⟩ :=
        Factor.component_library (hkind ▸ hk) hf <;>
      obtain ⟨hg', rfl⟩ | ⟨hg', start', label', stop', hhandles', hends'⟩ :=
        Factor.component_library (hkinds ▸ hkind ▸ hk) hg
    · exact ⟨htypes.symm, fun a ha => ha⟩
    · exact absurd (hkinds.trans hg') hf'
    · exact absurd (hkinds.symm.trans hf') hg'
    · refine ⟨?_, fun a ha => ?_⟩
      · simp only [Factor.types, hhandles, hhandles', hends, hends', List.map_cons, List.map_nil] at htypes ⊢
        simp_all
      · rw [hends] at ha
        rw [hhandles]
        simp at ha ⊢
        tauto
  rule := by
    intro own hown
    cases k with
    | client c => exact absurd rfl (hk c)
    | jacobian | scalarJacobian | prior | between | switchingBetween => cases hown

end LeastSquares
