import LeastSquares.Proofs.Graph.Exactness
import LeastSquares.Proofs.Solver.Trial
import LeastSquares.Solver.GradientDescent

/-!
# Gradient descent on affine graphs

The error of an affine graph is a square function of the displacement of its store. A step along
`-η g`, where `g` is the gradient, therefore takes the error from `E` to
`E - η ‖g‖² + η² / 2 ‖A g‖²`, with `A` the matrix of the linearisation; the error does not rise
where `η ‖A g‖² ≤ 2 ‖g‖²`. The store stays one at which the graph can be evaluated, so this is what
every step of a run does.
-/

namespace LeastSquares

open Matrix

/-- Half a squared residual, at a multiple of its own slope. -/
theorem half_residual_along_slope {K ι κ : Type} [Field K] [CharZero K] [Fintype ι] [Fintype κ]
    (A : Matrix κ ι K) (b : κ → K) (η : K) :
    1 / 2 * ((b - A *ᵥ (-η • -(Aᵀ *ᵥ b))) ⬝ᵥ (b - A *ᵥ (-η • -(Aᵀ *ᵥ b)))) =
      1 / 2 * (b ⬝ᵥ b) - η * (-(Aᵀ *ᵥ b) ⬝ᵥ -(Aᵀ *ᵥ b)) +
        η ^ 2 / 2 * (A *ᵥ -(Aᵀ *ᵥ b) ⬝ᵥ A *ᵥ -(Aᵀ *ᵥ b)) := by
  have hcross : b ⬝ᵥ A *ᵥ (Aᵀ *ᵥ b) = Aᵀ *ᵥ b ⬝ᵥ Aᵀ *ᵥ b := (dotProduct_transpose_mulVec A _ b).symm
  have hcross' : A *ᵥ (Aᵀ *ᵥ b) ⬝ᵥ b = Aᵀ *ᵥ b ⬝ᵥ Aᵀ *ᵥ b := by rw [dotProduct_comm, hcross]
  simp only [mulVec_smul, mulVec_neg, smul_neg, neg_smul, neg_neg, sub_dotProduct, dotProduct_sub,
    smul_dotProduct, dotProduct_smul, neg_dotProduct, dotProduct_neg, smul_eq_mul, hcross, hcross']
  ring

namespace GradientDescent

open Solve

variable {C α : Type} [DecidableEq C] [FactorFamily C] [LinearOrder α] [ExactScalar α]
  {config : Config α} {graph : FactorGraph C α} {p p' : Store C α} {r : Run (Store C α) α}

/-- The graph can be evaluated at a well-formed store, in which its handles are in range. -/
structure Evaluable (graph : FactorGraph C α) (p : Store C α) : Prop where
  wellFormed : p.WellFormed
  proper : graph.Proper p.layout
  evaluates : ∃ e, graph.residuals p.bulk = .ok e

/-- A step from one store to another, with the errors there. The step is the negative gradient at a
rate. -/
structure Descends (rate : α) (graph : FactorGraph C α) (p p' : Store C α) (E E' : α) : Prop where
  before : graph.error p.bulk = .ok E
  after : graph.error p'.bulk = .ok E'
  moved : ∃ g along, graph.gradient p = .ok g ∧ g.scaled (-rate) = .ok along ∧
    p.moved along.buffers = .ok p'
  change : ∃ linear g image slope curvature, graph.linearize p = .ok linear ∧
    graph.gradient p = .ok g ∧ linear.forward g.bulk = .ok image ∧ g.squaredNorm = .ok slope ∧
    image.squaredNorm = .ok curvature ∧ E' = E - rate * slope + rate ^ 2 / 2 * curvature ∧
    (0 ≤ rate → rate * curvature ≤ 2 * slope → E' ≤ E)

theorem Evaluable.error (haffine : graph.Affine) (h : Evaluable graph p) {linear : LinearGraph C α}
    (hlinear : graph.linearize p = .ok linear) :
    graph.error p.bulk = .ok (1 / 2 * (linear.rhs ⬝ᵥ linear.rhs)) := by
  obtain ⟨htangent, -⟩ := h.proper.linearize h.wellFormed hlinear
  have hwell := h.proper.wellFormed h.wellFormed hlinear
  have hfits := hwell.template_fills.within.fits
  have hstays : p.Moves linear.template p := h.wellFormed.moves_zero fun u hu =>
    hwell.template_zero (htangent.mem_cells hu)
  have hzero : linear.template.onCells linear.unknowns = 0 := funext fun u => hwell.template_zero u.2
  rw [haffine.error_eq h.wellFormed h.proper hlinear hstays hfits, hwell.error_eq hfits, hzero,
    mulVec_zero, sub_zero]

/-- From a store at which an affine graph can be evaluated, a step leads to another one. -/
theorem Evaluable.descends (haffine : graph.Affine) (heven : graph.Even) (h : Evaluable graph p)
    (rate : α) : ∃ p' E E', Descends rate graph p p' E E' ∧ Evaluable graph p' := by
  obtain ⟨linear, hlinear⟩ := haffine.exists_linearize heven h.wellFormed h.proper h.evaluates
  obtain ⟨htangent, -⟩ := h.proper.linearize h.wellFormed hlinear
  have hwell := h.proper.wellFormed h.wellFormed hlinear
  obtain ⟨g, hg, hgrep⟩ := h.proper.gradient h.wellFormed hlinear
  obtain ⟨along, halong, hrep⟩ := hgrep.scaled (-rate)
  obtain ⟨image, himage, himagerep⟩ := hwell.forward_represents hgrep.within.fits
  obtain ⟨p', hp'⟩ := h.wellFormed.exists_moved (htangent.within hrep.within)
  have hmoves := h.wellFormed.moves (htangent.fits hrep.within.fits) hp'
  have hafter := haffine.error_eq h.wellFormed h.proper hlinear hmoves hrep.within.fits
  rw [hwell.error_eq hrep.within.fits, hrep.onCells_eq] at hafter
  rw [hgrep.onCells_eq] at himagerep
  refine ⟨p', _, _, ⟨h.error haffine hlinear, hafter, ⟨g, along, hg, halong, hp'⟩, linear, g, image,
    _, _, hlinear, hg, himage, hgrep.squaredNorm, himagerep.squaredNorm,
    half_residual_along_slope _ _ _, fun hrate hsmall => ?_⟩, hmoves.wellFormed, ?_, ?_⟩
  · rw [half_residual_along_slope]
    nlinarith
  · rw [hmoves.layout]
    exact h.proper
  · obtain ⟨e, he, -⟩ := hwell.residuals hrep.within.fits
    exact ⟨e, (haffine.residuals_eq h.wellFormed h.proper hlinear hmoves hrep.within.fits).trans he⟩

/-- Steps from one store to another, with the errors at all stores on the way. -/
inductive Path (rate : α) (graph : FactorGraph C α) : Store C α → List α → Store C α → Prop where
  | rest {p : Store C α} {E : α} : graph.error p.bulk = .ok E → Path rate graph p [E] p
  | step {p p' last : Store C α} {E E' : α} {errors : List α} : Descends rate graph p p' E E' →
      Path rate graph p' (E' :: errors) last → Path rate graph p (E :: E' :: errors) last

/-- A path ends with the error at its last store. -/
theorem Path.error_last {rate : α} {errors : List α} {last : Store C α}
    (h : Path rate graph p errors last) : ∃ E, errors.getLast? = some E ∧
      graph.error last.bulk = .ok E := by
  induction h with
  | rest h => exact ⟨_, rfl, h⟩
  | step _ _ ih =>
    obtain ⟨E, hE, hlast⟩ := ih
    exact ⟨E, by rw [List.getLast?_cons_cons, hE], hlast⟩

/-- A step of the solver is the negative gradient at its rate. -/
theorem step_eq (config : Config α) {E E' : α}
    (h : Descends config.learningRate graph r.point p' E E') :
    step config graph r = .ok E' ⟨p', r.events⟩ := by
  obtain ⟨g, along, hg, halong, hmoved⟩ := h.moved
  have hmove : Store.move along.buffers r.point = .ok () p' := Store.moveAlong_of_moved hmoved
  unfold step
  rw [Edit.bind_ok (m := point) rfl, hg, Edit.bind_ok (m := run _) rfl, halong,
    Edit.bind_ok (m := run _) rfl, Edit.bind_ok (onPoint_ok hmove), Edit.bind_ok (m := point) rfl]
  simp only [h.after]
  rfl

theorem loop_path (haffine : graph.Affine) (heven : graph.Even) (config : Config α) (left i : Nat)
    (history : Array α) (h : Evaluable graph r.point) : ∃ errors history' r',
      loop config graph left i history r = .ok history' r' ∧
      history'.toList = history.toList ++ errors ∧ errors.length = left ∧
      ∀ E, graph.error r.point.bulk = .ok E →
        Path config.learningRate graph r.point (E :: errors) r'.point := by
  induction left generalizing i history r with
  | zero => exact ⟨[], history, r, rfl, (List.append_nil _).symm, rfl, fun E hE => .rest hE⟩
  | succ left ih =>
    obtain ⟨p', E, E', hdescends, hnext⟩ := h.descends haffine heven config.learningRate
    obtain ⟨r₁, hr₁, hpoint⟩ := reportIf_ok config.verbosity.showsIterations (.descended i E')
      ⟨p', r.events⟩
    obtain ⟨errors, history', r', hloop, hhistory, hlength, hpath⟩ :=
      ih (i + 1) (history.push E') (r := r₁) (hpoint ▸ hnext)
    refine ⟨E' :: errors, history', r', ?_, ?_, by rw [List.length_cons, hlength], fun E₀ hE₀ => ?_⟩
    · rw [loop, Edit.bind_ok (step_eq config hdescends), Edit.bind_ok hr₁, hloop]
    · rw [hhistory, Array.toList_push, List.append_assoc]
      rfl
    · obtain rfl := Except.ok.inj (hE₀.symm.trans hdescends.before)
      have hrest := hpath E' (by rw [hpoint]; exact hdescends.after)
      rw [hpoint] at hrest
      exact .step hdescends hrest

def tenthConfig : Config ℚ := ⟨1 / 10, 2, .silent⟩

def anchoredRun : Run (Store Catalogue ℚ) ℚ := ⟨FactorGraph.anchoredStart, #[]⟩

open FactorGraph in
theorem anchored_evaluates : ∃ e, anchored.residuals anchoredRun.point.bulk = .ok e :=
  Checked.exists_of_isOk (by decide +kernel)

end GradientDescent

end LeastSquares
