import LeastSquares.Proofs.Solver.Descent
import LeastSquares.Proofs.Solver.Stopping
import LeastSquares.Proofs.Graph.Residuals
import LeastSquares.Proofs.Buffer.Interpretation

/-!
# Vectors that are equal

Zeros may be stored, left out or stand as an empty buffer. A linear graph makes the same of vectors that are
equal in this sense, and the solver goes through the same iterates from equal starts, so it makes as many
steps and leaves equal vectors.
-/

namespace LeastSquares

namespace Vectors

variable {C α : Type} [DecidableEq C] [FactorFamily C] [LinearOrder α] [ExactScalar α] {L : Layout C}
  {v w : Vectors C α}

theorem onCells_eq_of_equal (hv : v.Within L) (hw : w.Within L) (h : v.equal w = .ok true) :
    v.onCells L = w.onCells L := by
  obtain ⟨r, hr, hiff⟩ := equal_of_within hv hw
  obtain rfl : r = true := Except.ok.inj (hr.symm.trans h)
  exact funext fun u => congrFun (hiff.1 rfl) u

end Vectors

namespace Cgls

variable {C α : Type} [DecidableEq C] [FactorFamily C] [LinearOrder α] [ExactScalar α]
  {g : LinearGraph C α} {x₀ x₀' : Vectors C α}

/-- The solver stays in step with itself from another start at the same point. -/
theorem Along.lockstep (hg : g.WellFormed) (hcells : x₀.onCells g.unknowns = x₀'.onCells g.unknowns)
    (config : Config α) (budget : Nat) {state state' : State C α} {x x' : Vectors C α}
    (h : Along g x₀ state x) (h' : Along g x₀' state' x') (hstep : state.step = state'.step) :
    ∃ last last' z z', Along g x₀ last z ∧ Along g x₀' last' z' ∧ last.step = last'.step ∧
      Cgls.loop config g false budget state x = .ok (last.step, last.gamma) z ∧
      Cgls.loop config g false budget state' x' = .ok (last'.step, last'.gamma) z' := by
  induction budget generalizing state state' x x' with
  | zero => exact ⟨state, state', x, x', h, h', hstep, rfl, rfl⟩
  | succ budget ih =>
    have hpoint : iterate g x₀ state.step = iterate g x₀' state'.step := by
      rw [iterate, iterate, hcells, hstep]
    have hgamma : state.gamma = state'.gamma := by
      rw [h.represents.gamma, h'.represents.gamma, hpoint]
    rcases h.step hg config with ⟨hend, hrun⟩ | ⟨hmore, hne, next, y, hnext, hsucc, hrun⟩
    · rcases h'.step hg config with ⟨-, hrun'⟩ | ⟨hmore', hne', -⟩
      · refine ⟨state, state', x, x', h, h', hstep, ?_, ?_⟩
        · rw [Cgls.loop, Edit.bind_ok hrun]
          rfl
        · rw [Cgls.loop, Edit.bind_ok hrun']
          rfl
      · rw [hgamma] at hend
        exact absurd hend (not_or.2 ⟨not_not.2 hmore', hne'⟩)
    · rcases h'.step hg config with ⟨hend', -⟩ | ⟨-, -, next', y', hnext', hsucc', hrun'⟩
      · rw [← hgamma] at hend'
        exact absurd hend' (not_or.2 ⟨not_not.2 hmore, hne⟩)
      · have hsteps : next.step = next'.step := by omega
        rw [← hpoint] at hrun'
        by_cases hlt : stride g (iterate g x₀ state.step) < config.precision
        · rw [if_pos hlt] at hrun hrun'
          refine ⟨next, next', y, y', hnext, hnext', hsteps, ?_, ?_⟩
          · rw [Cgls.loop, Edit.bind_ok hrun]
            rfl
          · rw [Cgls.loop, Edit.bind_ok hrun']
            rfl
        · rw [if_neg hlt] at hrun hrun'
          obtain ⟨last, last', z, z', hlast, hlast', heq, hloop, hloop'⟩ := ih hnext hnext' hsteps
          refine ⟨last, last', z, z', hlast, hlast', heq, ?_, ?_⟩
          · rw [Cgls.loop, Edit.bind_ok hrun]
            exact hloop
          · rw [Cgls.loop, Edit.bind_ok hrun']
            exact hloop'

/-- From equal starts the solver makes as many steps and leaves equal vectors. -/
theorem solve_equal (hg : g.WellFormed) (hx : x₀.Within g.unknowns) (hx' : x₀'.Within g.unknowns)
    (hcells : x₀.onCells g.unknowns = x₀'.onCells g.unknowns) (config : Config α) :
    ∃ steps gamma z z', solve config g false x₀ = .ok (steps, gamma) z ∧
      solve config g false x₀' = .ok (steps, gamma) z' ∧ z.equal z' = .ok true := by
  obtain ⟨state, hstate, hzero, h⟩ := along_start hg hx.fits
  obtain ⟨state', hstate', hzero', h'⟩ := along_start hg hx'.fits
  obtain ⟨last, last', z, z', hlast, hlast', hstep, hloop, hloop'⟩ :=
    Along.lockstep hg hcells config config.maxIterations.toNat h h' (hzero.trans hzero'.symm)
  have hpoint : iterate g x₀ last.step = iterate g x₀' last'.step := by
    rw [iterate, iterate, hcells, hstep]
  have hz : z.Represents g.unknowns (iterate g x₀ last.step).x :=
    ⟨hlast.within hx, hlast.represents.point⟩
  have hz' : z'.Represents g.unknowns (iterate g x₀ last.step).x :=
    ⟨hlast'.within hx', hpoint ▸ hlast'.represents.point⟩
  refine ⟨last.step, last.gamma, z, z', ?_, ?_, hz.equal hz'⟩
  · rw [solve, Edit.get_bind, Edit.lift_bind hstate, hloop]
  · rw [solve, Edit.get_bind, Edit.lift_bind hstate', hloop', hstep, hlast.represents.gamma,
      hlast'.represents.gamma, hpoint]

end Cgls

namespace LinearGraph

variable {C α : Type} [DecidableEq C] [FactorFamily C] [LinearOrder α] [ExactScalar α]
  {g : LinearGraph C α}

omit [FactorFamily C] [LinearOrder α] [ExactScalar α] in
theorem within_empty (L : Layout C) : (Vectors.empty : Vectors C α).Within L :=
  ⟨Cgls.fits_empty L, fun _ _ => rfl⟩

/-- A linear graph makes the same of equal vectors, and the solver comes to the same from equal starts that are
not the template itself; so it does from no vectors at all and from a copy of the zero template. The transpose
always has the keys of the template, in order, and its arrays. -/
theorem WellFormed.respects_equal (hg : g.WellFormed) :
    (∀ x x' : Vectors C α, x.Within g.unknowns → x'.Within g.unknowns → x.equal x' = .ok true →
      (∃ e e', g.residuals x.bulk = .ok e ∧ g.residuals x'.bulk = .ok e' ∧ e.equal e' = .ok true) ∧
      (∃ q q', g.forward x.bulk = .ok q ∧ g.forward x'.bulk = .ok q' ∧ q.equal q' = .ok true) ∧
      (∃ E, g.error x.bulk = .ok E ∧ g.error x'.bulk = .ok E) ∧
      ∀ config, ∃ steps gamma z z', Cgls.solve config g false x = .ok (steps, gamma) z ∧
        Cgls.solve config g false x' = .ok (steps, gamma) z' ∧ z.equal z' = .ok true) ∧
    (∀ y y' : Vectors C α, y.Within g.equations → y'.Within g.equations → y.equal y' = .ok true →
      ∃ s s', g.adjoint y.buffers = .ok s ∧ g.adjoint y'.buffers = .ok s' ∧ s.equal s' = .ok true ∧
        ∀ t ∈ [s, s'], t.buffers.keys = g.template.buffers.keys ∧ t.Fills g.unknowns) ∧
    ∀ config, ∃ steps gamma z z', Cgls.solve config g false .empty = .ok (steps, gamma) z ∧
      Cgls.solve config g false g.template = .ok (steps, gamma) z' ∧ z.equal z' = .ok true := by
  refine ⟨fun x x' hx hx' hequal => ?_, fun y y' hy hy' hequal => ?_, fun config => ?_⟩
  · have hcells := Vectors.onCells_eq_of_equal hx hx' hequal
    obtain ⟨e, he, herep⟩ := hg.residuals_represents hx.fits
    obtain ⟨e', he', herep'⟩ := hg.residuals_represents hx'.fits
    obtain ⟨q, hq, hqrep⟩ := hg.forward_represents hx.fits
    obtain ⟨q', hq', hqrep'⟩ := hg.forward_represents hx'.fits
    rw [← hcells] at herep' hqrep'
    refine ⟨⟨e, e', he, he', herep.equal herep'⟩, ⟨q, q', hq, hq', hqrep.equal hqrep'⟩,
      ⟨_, hg.error_eq hx.fits, ?_⟩, Cgls.solve_equal hg hx hx' hcells⟩
    rw [hcells]
    exact hg.error_eq hx'.fits
  · have hcells := Vectors.onCells_eq_of_equal hy hy' hequal
    obtain ⟨s, hs, hfills, -⟩ := hg.adjoint hy.fits
    obtain ⟨s', hs', hfills', -⟩ := hg.adjoint hy'.fits
    obtain ⟨t, ht, hrep⟩ := hg.adjoint_represents ⟨hy, rfl⟩
    obtain ⟨t', ht', hrep'⟩ := hg.adjoint_represents ⟨hy', hcells.symm⟩
    obtain rfl := Except.ok.inj (ht.symm.trans hs)
    obtain rfl := Except.ok.inj (ht'.symm.trans hs')
    refine ⟨t, t', hs, hs', hrep.equal hrep', ?_⟩
    simp only [List.forall_mem_cons, List.not_mem_nil, false_implies, implies_true, and_true]
    exact ⟨⟨keys_adjoint hs, hfills⟩, keys_adjoint hs', hfills'⟩
  · refine Cgls.solve_equal hg (within_empty _) hg.template_fills.within ?_ config
    rw [Cgls.onCells_empty]
    exact funext fun u => (hg.template_zero u.2).symm

end LinearGraph

namespace Cgls

/-- Zero residuals of the tilted equations. -/
def tiltedZeros : Vectors Catalogue ℚ := ⟨.ofList [(planeKey, .ofVectors planeKey (.zeros [1, 2]))]⟩

theorem tiltedZeros_within : tiltedZeros.Within tilted.equations where
  fits := by
    intro key hkey
    obtain rfl : key = planeKey := by simpa [LinearGraph.equations, tilted, Table.keys] using hkey
    exact .inr ⟨_, ⟨rfl, rfl⟩, rfl⟩
  outside := by
    intro key hkey
    have hkeys : tiltedZeros.buffers.keys = tilted.buffers.keys := by decide
    have hne : key ∉ tiltedZeros.buffers.keys := by
      rwa [hkeys, ← List.mem_toFinset]
    exact congrArg Buffer.isEmpty (Buffers.buffer_of_not_mem hne)

/-- Zeros of the tilted equations may be left out, for the unknowns and for the residuals. -/
theorem tilted_respects : (∃ z z', solve coarse tilted false .empty = .ok (1, 72 / 25) z ∧
      solve coarse tilted false tilted.template = .ok (1, 72 / 25) z' ∧ z.equal z' = .ok true) ∧
    ∃ s s', tilted.adjoint (Vectors.empty : Vectors Catalogue ℚ).buffers = .ok s ∧
      tilted.adjoint tiltedZeros.buffers = .ok s' ∧ s.equal s' = .ok true := by
  obtain ⟨-, hadjoint, hsolve⟩ := tilted_wellFormed.respects_equal
  obtain ⟨-, -, -, -, x, -, -, -, hsolved⟩ := tilted_solves
  refine ⟨?_, ?_⟩
  · obtain ⟨steps, gamma, z, z', hz, hz', hequal⟩ := hsolve coarse
    cases hz'.symm.trans hsolved
    exact ⟨z, x, hz, hsolved, hequal⟩
  · obtain ⟨s, s', hs, hs', hequal, -⟩ := hadjoint .empty tiltedZeros (LinearGraph.within_empty _)
      tiltedZeros_within (by decide +kernel)
    exact ⟨s, s', hs, hs', hequal⟩

/-- The template is equal to no vectors at all. But the solver makes another number of steps if it works on the
template that the equations read. -/
theorem tilted_shared : (Vectors.empty : Vectors Catalogue ℚ).equal tilted.template = .ok true ∧
    ∃ steps gamma z steps' gamma' z',
      solve ⟨1 / 1000000, 3⟩ tilted false .empty = .ok (steps, gamma) z ∧
      solve ⟨1 / 1000000, 3⟩ tilted true tilted.template = .ok (steps', gamma') z' ∧ steps ≠ steps' := by
  refine ⟨by decide +kernel, ?_⟩
  have hrun : (match solve ⟨1 / 1000000, 3⟩ tilted false .empty,
      solve ⟨1 / 1000000, 3⟩ tilted true tilted.template with
      | .ok (steps, _) _, .ok (steps', _) _ => decide (steps ≠ steps')
      | _, _ => false) = true := by decide +kernel
  split at hrun
  next steps gamma z steps' gamma' z' hempty htemplate =>
    exact ⟨steps, gamma, z, steps', gamma', z', hempty, htemplate, of_decide_eq_true hrun⟩
  next => cases hrun

end Cgls

end LeastSquares
