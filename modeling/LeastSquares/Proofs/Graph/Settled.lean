import LeastSquares.Proofs.Graph.Chosen
import LeastSquares.Proofs.Graph.Exactness
import LeastSquares.Proofs.Graph.Listed

/-!
# Stacks of relative motions

A stack of factors of relative motions, given or chosen by labels, comes to what its settled factors come to
one by one: in its error, in what it adds to a gradient, and in its linear factors.
-/

namespace LeastSquares

open Checked (amount)

namespace Factor

variable {C α : Type} [DecidableEq C] [FactorFamily C] [LinearOrder α] [ExactScalar α]
  {s : Store C α} {f : FactorLiteral C α} {ms : List (FactorLiteral C α)} {g r p F G : FactorStack C α}

/-! ## One factor -/

/-- A factor of a relative motion between variables of a store. The motion is given, or chosen by a label
in range. -/
structure Moves (s : Store C α) (f : FactorLiteral C α) : Prop where
  inRange : ∀ a ∈ f.handles, a.InRange s.layout
  motion : f.kind = .between ∧ f.handles ≠ [] ∨ f.Labelled s

theorem Moves.settles (h : f.Moves s) (hs : s.WellFormed) (hg : f.stored? = some g)
    (hr : g.Widens r) : ∃ p, Settles s f r p := by
  obtain ⟨hkind, hne⟩ | hlabel := h.motion
  · exact ⟨_, settles_between hkind hne h.inRange hg hr⟩
  · exact hlabel.settles hs h.inRange hg hr

omit [FactorFamily C] in
theorem Moves.kind (h : f.Moves s) : f.kind = .between ∨ f.kind = .switchingBetween := by
  obtain ⟨hkind, -⟩ | ⟨_, _, _, _, _, _, _, rfl, -⟩ := h.motion
  · exact .inl hkind
  · exact .inr rfl

omit [FactorFamily C] in
theorem Moves.connected (h : f.Moves s) : f.handles ≠ [] := by
  obtain ⟨-, hne⟩ | ⟨_, _, _, _, _, _, _, rfl, -⟩ := h.motion
  · exact hne
  · simp

/-- What the settled factor comes to: its error, -/
def settledError (s : Store C α) (f : FactorLiteral C α) : WithTop α :=
  amount ((f.settledReals s >>= fun p => p.values s.bulk >>= p.error).map fun e => e.sum.value)

/-- what it adds to the gradient, -/
def settledDeposit (s : Store C α) (f : FactorLiteral C α) : WithTop (s.tangents.cells → α) :=
  amount ((f.settledReals s >>= contribution s.bulk).map (deposits s.tangents))

/-- and its linear factor. -/
def settledLinear (s : Store C α) (f : FactorLiteral C α) : Checked (FactorStack C α) :=
  f.settledReals s >>= fun p => p.values s.bulk >>= p.linearized

omit [FactorFamily C] in
/-- A handle of a variable with a tangent space addresses a row of the tangent vectors. -/
theorem points_tangents {a : Handle (Block α)} (ha : a.Points s.layout)
    (hdiff : a.type.isDifferentiable = true) : a.Points s.tangents :=
  ⟨Store.mem_tangents.2 ⟨ha.1, hdiff⟩, ha.2⟩

theorem Settles.contributes (h : Settles s f r p) {row : List (Handle (Block α) × Block α)}
    (hrow : r.contribution s.bulk = .ok row) :
    List.Forall₂ (Contributes s.tangents) r.endTypes row := by
  rw [h.stands.contribution] at hrow
  obtain ⟨values, part, ws, vs, -, hpart, hvs, rfl⟩ := contribution_eq_ok hrow
  rw [component_between h.kind] at hpart
  obtain ⟨_, hdiff, hpart⟩ := Checked.bind_eq_ok hpart
  cases hpart
  rw [← h.types]
  refine contributes_errorGradient hvs fun a ha => points_tangents (h.points a ha) ?_
  exact checkDifferentiable_eq_ok.1 hdiff _ (List.mem_map_of_mem ha)

theorem Settles.explicit (h : Settles s f r p) (hg : settledLinear s f = .ok g) :
    (r.values s.bulk >>= r.linearized) = .ok g ∧ ∃ m, r.weighedShape = some [m] ∧
      Explicit s.tangents r.endTypes m g ∧ g.handles = p.handles ∧ LinearRow s.tangents g := by
  rw [settledLinear, h.settled, Checked.ok_bind] at hg
  refine ⟨h.stands.linearized.trans hg, ?_⟩
  obtain ⟨values, -, hg⟩ := Checked.bind_eq_ok hg
  rw [linearized_between h.kind] at hg
  obtain ⟨_, hdiff, hg⟩ := Checked.bind_eq_ok hg
  obtain ⟨m, blocks, error, rfl, hshapes, herror, hweighed⟩ := linearizing_between h.kind hg
  have hpoints : ∀ a ∈ p.handles, a.Points s.tangents := fun a ha =>
    points_tangents (h.points a ha) (checkDifferentiable_eq_ok.1 hdiff _ (List.mem_map_of_mem ha))
  exact ⟨m, h.weighed ▸ hweighed, ⟨p.handles, blocks, error, rfl, h.types, hshapes, herror, hpoints⟩,
    rfl, m, p.handles, blocks, error, rfl, h.connected, hshapes, herror, hpoints⟩

/-! ## Stacks -/

omit [DecidableEq C] [FactorFamily C] in
theorem endTypes_row (F : FactorStack C α) (i : Nat) : (F.row i).endTypes = F.endTypes := by
  rw [endTypes, types_row]
  rfl

omit [DecidableEq C] [FactorFamily C] in
theorem weighedShape_row (F : FactorStack C α) (i j : Nat) :
    (F.row i).weighedShape = (F.row j).weighedShape := by
  obtain ⟨kind, handles, fields⟩ := F
  match fields with
  | [] | [_] | _ :: _ :: _ :: _ => rfl
  | [_, noise] =>
    show Noise.weighedShape ((noise.map (·.row i)).map Block.shape) =
      Noise.weighedShape ((noise.map (·.row j)).map Block.shape)
    rw [Tree.map_map, Tree.map_map]
    exact congrArg (fun f => Noise.weighedShape (noise.map f)) (funext fun b => by
      rw [Block.shape_row_eq, Block.shape_row_eq])

/-- The stack holds factors of relative motions as rows. -/
structure Motions (s : Store C α) (ms : List (FactorLiteral C α)) (F : FactorStack C α) : Prop where
  rows : F.rows = .ok ((List.range ms.length).map F.row)
  positive : 0 < ms.length
  inherited : stackRule? F.kind = none
  settles : ∀ i (hi : i < ms.length), ∃ p, Settles s ms[i] (F.row i) p

omit [DecidableEq C] [FactorFamily C] [LinearOrder α] [ExactScalar α] in
/-- Sums over the rows of a stack are sums over its factors. -/
theorem sum_rows {M : Type} [AddCommMonoid M] [Scalar α] {w : FactorStack C α → M}
    {weight : FactorLiteral C α × Nat → M}
    (h : ∀ i (hi : i < ms.length), w (F.row i) = weight (ms[i], i)) :
    (((List.range ms.length).map F.row).map w).sum = (ms.zipIdx.map weight).sum := by
  refine congrArg List.sum (List.ext_getElem (by simp) fun i hi _ => ?_)
  have hi : i < ms.length := by simpa using hi
  simpa using h i hi

theorem Motions.amount_stackError (h : F.Motions s ms) : amount (F.stackError s.bulk) =
    (ms.zipIdx.map fun q => settledError s q.1).sum := by
  rw [Factor.amount_stackError h.rows]
  refine sum_rows fun i hi => ?_
  obtain ⟨p, hp⟩ := h.settles i hi
  rw [hp.stands.error, settledError, hp.settled, Checked.ok_bind]

theorem Motions.adds_stackGradient (h : F.Motions s ms) (hL : s.tangents.Tangent) :
    Vectors.Adds s.tangents (F.stackGradient s.bulk)
      (ms.zipIdx.map fun q => settledDeposit s q.1).sum := by
  have hcontributes : ∀ r ∈ (List.range ms.length).map F.row, ∀ row, r.contribution s.bulk = .ok row →
      List.Forall₂ (Contributes s.tangents) F.endTypes row := by
    intro r hr row hrow
    obtain ⟨i, hi, rfl⟩ := List.mem_map.1 hr
    obtain ⟨p, hp⟩ := h.settles i (List.mem_range.1 hi)
    rw [← endTypes_row F i]
    exact hp.contributes hrow
  have hadds := Factor.adds_stackGradient hL h.rows hcontributes
  rwa [sum_rows fun i hi => ?_] at hadds
  obtain ⟨p, hp⟩ := h.settles i hi
  rw [hp.stands.contribution, settledDeposit, hp.settled, Checked.ok_bind]

theorem Motions.stackLinearized_eq (h : F.Motions s ms) (read : Reader α) : F.stackLinearized read =
    (List.range ms.length).mapM (fun i => (F.row i).values read >>= (F.row i).linearized) >>=
      fun gs => fitting (stack? gs) := by
  unfold stackLinearized overRows
  rw [h.inherited]
  dsimp only
  rw [h.rows, Checked.ok_bind, List.mapM_map]
  rfl

/-- The linear factors of settled factors can be stacked: the key of the group tells their sizes. -/
theorem Motions.exists_stackLinearized (h : F.Motions s ms)
    (hall : ∀ i (hi : i < ms.length), ∃ g, settledLinear s ms[i] = .ok g) :
    ∃ G, F.stackLinearized s.bulk = .ok G := by
  obtain ⟨g, hg⟩ := hall 0 h.positive
  obtain ⟨p, hp⟩ := h.settles 0 h.positive
  obtain ⟨-, m, hm, -⟩ := hp.explicit hg
  obtain ⟨gs, hgs, hexplicit⟩ := Checked.mapM_forall₂ (l := List.range ms.length)
    (f := fun i => (F.row i).values s.bulk >>= (F.row i).linearized)
    (P := fun _ g => Explicit s.tangents F.endTypes m g) (by
      intro i hi
      have hi := List.mem_range.1 hi
      obtain ⟨g, hg⟩ := hall i hi
      obtain ⟨p, hp⟩ := h.settles i hi
      obtain ⟨hrow, m', hm', hexplicit, -⟩ := hp.explicit hg
      obtain rfl : m' = m := by
        rw [weighedShape_row F i 0, hm] at hm'
        simpa using hm'.symm
      exact ⟨g, hrow, endTypes_row F i ▸ hexplicit⟩)
  have hne : gs ≠ [] := by
    rw [← List.length_pos_iff, ← hexplicit.length_eq, List.length_range]
    exact h.positive
  obtain ⟨G, hG⟩ := exists_stack?_of_explicit hne fun g hg => by
    obtain ⟨i, hi, rfl⟩ := List.getElem_of_mem hg
    exact hexplicit.get (hexplicit.length_eq ▸ hi) hi
  exact ⟨G, by rw [h.stackLinearized_eq, hgs, Checked.ok_bind, hG, fitting_some]⟩

/-- The rows of the linear stack are the linear factors of the settled factors. -/
theorem Motions.linearized (h : F.Motions s ms) (hG : F.stackLinearized s.bulk = .ok G) :
    (∃ m, G.Linear s.tangents ms.length m) ∧
      ∀ i (hi : i < ms.length), settledLinear s ms[i] = .ok (G.row i) := by
  rw [h.stackLinearized_eq] at hG
  obtain ⟨gs, hgs, hG⟩ := Checked.bind_eq_ok hG
  have hspec := Checked.forall₂_of_mapM hgs
  have hlength : gs.length = ms.length := by rw [← hspec.length_eq, List.length_range]
  have hrow : ∀ i (hi : i < ms.length) (hi' : i < gs.length),
      settledLinear s ms[i] = .ok gs[i] ∧ LinearRow s.tangents gs[i] := by
    intro i hi hi'
    obtain ⟨p, hp⟩ := h.settles i hi
    have hget := hspec.get (i := i) (by simpa using hi) hi'
    simp only [List.get_eq_getElem, List.getElem_range] at hget
    have hlinear : settledLinear s ms[i] = .ok gs[i] := by
      rw [settledLinear, hp.settled, Checked.ok_bind, ← hp.stands.linearized, hget]
    obtain ⟨-, -, -, -, -, hlinearRow⟩ := hp.explicit hlinear
    exact ⟨hlinear, hlinearRow⟩
  obtain ⟨hrows, m, hlinear⟩ := linear_of_stack? (fitting_eq_ok hG) fun g hg => by
    obtain ⟨i, hi, rfl⟩ := List.getElem_of_mem hg
    exact (hrow i (hlength ▸ hi) hi).2
  refine ⟨⟨m, hlength ▸ hlinear⟩, fun i hi => ?_⟩
  rw [hrows i (hlength ▸ hi)]
  exact (hrow i hi (hlength ▸ hi)).1

end Factor

/-! ## Groups -/

namespace FactorGraph

variable {C α : Type} [DecidableEq C] [FactorFamily C] [LinearOrder α] [ExactScalar α]
  {s : Store C α} {k : GroupKey C} {ms : List (FactorLiteral C α)} {b : Buffer C α}

/-- A group of relative motions is a stack of them. -/
theorem Bucket.motions (h : Bucket k ms b) (hs : s.WellFormed) (hk : k.kind.hasResidual = true)
    (hms : ∀ f ∈ ms, Factor.Moves s f) :
    b.hasResiduals = true ∧ ∃ F, b.factors = .ok F ∧ F.Motions s ms := by
  have hpositive : 0 < ms.length := by
    obtain ⟨rows, F, -, -, hrows, hF⟩ := h
    rw [hrows.length_eq]
    exact List.length_pos_of_ne_nil (Factor.stack?_spec hF).1
  have hstored : ∀ f ∈ ms, ∀ g, f.stored? = some g → g.handles ≠ [] ∧
      ∀ a ∈ g.handles, a.index.kind = .int := by
    intro f hf g hg
    refine ⟨?_, fun a ha => ?_⟩
    · rw [← List.length_pos_iff, ← (Factor.handles_of_stored? hg).length_eq]
      exact List.length_pos_iff.2 (hms f hf).connected
    · obtain ⟨-, t, ht, -⟩ := Factor.points_of_stored? hg (hms f hf).inRange a ha
      rw [ht]
      rfl
  obtain ⟨F, hfactors, hrows, hwidens⟩ := h.rows (fun f hf g hg => (hstored f hf g hg).2)
    fun f hf g hg => by
      have hne := (hstored f hf g hg).1
      simp [Factor.leaves, hne]
  have hkind : F.kind = .between ∨ F.kind = .switchingBetween := by
    obtain ⟨g, hg, hwiden⟩ := hwidens 0 hpositive
    have hgkind : F.kind = (ms[0]).kind :=
      (congrArg (·.1) hwiden.frame).trans (congrArg (·.1) (Factor.stored?_spec hg).1)
    rw [hgkind]
    exact (hms _ (List.getElem_mem hpositive)).kind
  refine ⟨?_, F, hfactors, hrows, hpositive, ?_, fun i hi => ?_⟩
  · obtain ⟨-, -, hcontent, -⟩ := h
    rw [Buffer.hasResiduals, hcontent]
    exact hk
  · obtain hkind | hkind := hkind <;> rw [hkind] <;> rfl
  · obtain ⟨g, hg, hwiden⟩ := hwidens i hi
    exact (hms _ (List.getElem_mem hi)).settles hs hg hwiden

end FactorGraph

end LeastSquares
