import LeastSquares.Proofs.Graph.Residuals
import LeastSquares.Proofs.Graph.Damping
import LeastSquares.Proofs.Graph.Handles
import LeastSquares.Solver.LevenbergMarquardt

/-!
# Groups in the way of damping

A linearised graph keeps the keys of its groups, and damping adds a group of scalar Jacobians for each
type with tangent vectors. So a linearisation that was never damped is refused like one that was, just
if the graph itself has a group of scalar Jacobians on such a type.
-/

namespace LeastSquares

namespace FactorGraph

section Keys

variable {C α : Type} [DecidableEq C] [FactorFamily C] [LinearOrder α] [ExactScalar α]
  {graph : FactorGraph C α} {linear : LinearGraph C α} {s : Store C α}

/-- A linearised graph has the groups that have residuals. -/
theorem keys_linearize (h : graph.linearize s = .ok linear) :
    linear.buffers.keys = graph.residualKeys := by
  obtain ⟨buffers, hbuffers, h⟩ := Checked.bind_eq_ok h
  obtain ⟨z, -, h⟩ := Checked.bind_eq_ok h
  cases h
  obtain ⟨image, himage, hentries⟩ := Table.exists_images hbuffers
  rw [Table.keys, hentries]
  refine keys_images_residual fun e he => ?_
  have hstep := himage e he
  cases hresiduals : e.2.hasResiduals with
  | false =>
    simp only [hresiduals, Bool.false_eq_true, if_false] at hstep
    rw [← Except.ok.inj hstep]
    rfl
  | true =>
    simp only [hresiduals, if_true] at hstep
    obtain ⟨f, -, hstep⟩ := Checked.bind_eq_ok hstep
    obtain ⟨F, -, hstep⟩ := Checked.bind_eq_ok hstep
    rw [← Except.ok.inj hstep]
    rfl

/-- A linearisation can be damped just if the graph has no residuals under the key of a group that
damps one of the types with tangent vectors. Otherwise it is refused as damped already. -/
theorem damped_linearize (hs : s.WellFormed) (h : graph.linearize s = .ok linear) (r : α) :
    ((∃ d, linear.damped r = .ok d) ↔ ∀ T, Key.type T ∈ s.tangents.keys →
      Key.group (LinearGraph.dampingGroup T) ∉ graph.residualKeys) ∧
    ∀ e, linear.damped r = .error e → ∃ T, Key.type T ∈ s.tangents.keys ∧
      Key.group (LinearGraph.dampingGroup T) ∈ graph.residualKeys ∧ e = .broken (.undamped T.name) := by
  have hkeys := keys_linearize h
  have htangent : linear.TangentTo s := by
    obtain ⟨buffers, -, h⟩ := Checked.bind_eq_ok h
    obtain ⟨z, hz, h⟩ := Checked.bind_eq_ok h
    cases h
    exact ⟨hs, hz⟩
  have hzero := htangent.zeroTemplate
  have hmem : ∀ T, Key.type T ∈ linear.template.buffers.keys ↔ Key.type T ∈ s.tangents.keys := by
    intro T
    rw [← htangent.mem_unknowns, hzero.keys_unknowns, List.mem_toFinset]
  by_cases hfresh : ∀ T, Key.type T ∈ s.tangents.keys →
      Key.group (LinearGraph.dampingGroup T) ∉ graph.residualKeys
  · obtain ⟨buffers, hdamp, -⟩ := LinearGraph.dampAlong_entries (s := r) (fun _ he => hzero.rows he)
      linear.template.buffers.distinct fun T hT => hkeys ▸ hfresh T ((hmem T).1 hT)
    have hdamped : linear.damped r = .ok ⟨buffers, linear.template⟩ := by
      unfold LinearGraph.damped LinearGraph.damp
      rw [Edit.get_bind, hdamp]
    refine ⟨⟨fun _ => hfresh, fun _ => ⟨_, hdamped⟩⟩, fun e he => ?_⟩
    cases hdamped.symm.trans he
  · push Not at hfresh
    obtain ⟨T, hT, hgroup⟩ := hfresh
    obtain ⟨T', g', hT', hgroup', hstops⟩ := LinearGraph.dampAlong_stops (s := r)
      (fun _ he => hzero.rows he) linear.template.buffers.distinct ((hmem T).2 hT) (hkeys ▸ hgroup)
    have hdamped : linear.damped r = .error (.broken (.undamped T'.name)) := by
      unfold LinearGraph.damped LinearGraph.damp
      rw [Edit.get_bind, hstops]
    refine ⟨⟨fun ⟨d, hd⟩ => ?_, fun hall => absurd hgroup (hall T hT)⟩, fun e he => ?_⟩
    · cases hdamped.symm.trans hd
    · exact ⟨T', (hmem T').1 hT', hkeys ▸ hgroup', Except.error.inj (he.symm.trans hdamped)⟩

end Keys

/-! ## A graph with scalar Jacobians of its own -/

/-- A factor that draws a number to zero. -/
def spring : FactorLiteral Catalogue ℚ := ⟨.scalarJacobian, [⟨.real 1, .int 0⟩], [.leaf (.real 1)]⟩

/-- A graph with that factor. -/
def sprung : FactorGraph Catalogue ℚ where
  buffers := Table.empty.insert (.group (.ofItems spring))
    { stack := some (.factors
        ⟨.scalarJacobian, [⟨.real 1, .ints (.generate [1] fun _ => 0)⟩], [.leaf (.full [1] 1)]⟩)
      content := some (.factors .scalarJacobian)
      place := .host }

theorem exists_linear_sprung : ∃ linear, sprung.linearize lone = .ok linear :=
  Checked.exists_of_isOk (by decide +kernel)

/-- The linearisation was never damped, yet it is refused, and so is the run of a solver. -/
theorem sprung_refused : Store.empty.insert two (some (.real 1)) = .ok (lone, ⟨.real 1, .int 0⟩) ∧
    FactorGraph.empty.insert spring = .ok sprung ∧
    (∃ linear, sprung.linearize lone = .ok linear ∧
      linear.damped 1 = .error (.broken (.undamped "RealVectorVariable[1]"))) ∧
    ∃ r, LevenbergMarquardt.optimize .standard sprung ⟨lone, #[]⟩ =
      .error (.failed (.broken (.undamped "RealVectorVariable[1]"))) r := by
  have hdamped : (sprung.linearize lone >>= fun linear => linear.damped 1).map (fun _ => ()) =
      .error (.broken (.undamped "RealVectorVariable[1]")) := by decide +kernel
  have hoptimize : (match LevenbergMarquardt.optimize .standard sprung ⟨lone, #[]⟩ with
      | .error (.failed e) _ => decide (e = .broken (.undamped "RealVectorVariable[1]"))
      | _ => false) = true := by decide +kernel
  refine ⟨rfl, rfl, ?_, ?_⟩
  · obtain ⟨linear, hlinear⟩ := exists_linear_sprung
    rw [hlinear, Checked.ok_bind] at hdamped
    refine ⟨linear, hlinear, ?_⟩
    cases h : linear.damped 1 with
    | ok d => rw [h] at hdamped; cases hdamped
    | error e =>
      rw [h] at hdamped
      exact congrArg Except.error (Except.error.inj hdamped)
  · cases h : LevenbergMarquardt.optimize .standard sprung ⟨lone, #[]⟩ with
    | ok b r => rw [h] at hoptimize; cases hoptimize
    | error e r =>
      rw [h] at hoptimize
      cases e with
      | gaveUp => cases hoptimize
      | failed e =>
        have he : e = .broken (.undamped "RealVectorVariable[1]") := of_decide_eq_true hoptimize
        exact ⟨r, by rw [he]⟩

theorem sprung_collides : ∃ linear, sprung.linearize lone = .ok linear ∧
    ((∃ d, linear.damped 1 = .ok d) ↔ ∀ T, Key.type T ∈ lone.tangents.keys →
      Key.group (LinearGraph.dampingGroup T) ∉ sprung.residualKeys) ∧
    ∀ e, linear.damped 1 = .error e → ∃ T, Key.type T ∈ lone.tangents.keys ∧
      Key.group (LinearGraph.dampingGroup T) ∈ sprung.residualKeys ∧ e = .broken (.undamped T.name) := by
  obtain ⟨linear, hlinear⟩ := exists_linear_sprung
  exact ⟨linear, hlinear, damped_linearize lone_wellFormed hlinear 1⟩

end FactorGraph

end LeastSquares
