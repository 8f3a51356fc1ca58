import LeastSquares.Proofs.Graph.Stored
import LeastSquares.Proofs.Solver.Fidelity
import LeastSquares.Solver.GradientDescent

/-!
# Solves that come to an end

On a graph that can be evaluated no solver fails. Conjugate gradients divide by the squared norm of an
image, where it is not zero, and by that of `s`, which is not zero either then; whatever the point is,
also the template itself. Gradient descent moves the store along vectors of its tangent space, and the
store can be evaluated again. So can the store in every trial of the damped solver, which therefore
returns or gives up.
-/

namespace LeastSquares

/-! ## Conjugate gradients -/

namespace Cgls

variable {C α : Type} [DecidableEq C] [FactorFamily C] [LinearOrder α] [ExactScalar α]
  {g : LinearGraph C α} {x x₀ : Vectors C α} {state : State C α} {shared : Bool}

/-- The solver can make a step: it has the vectors of an iterate whose direction is zero if its `s` is;
and a point that is the template has all its rows. -/
structure Poised (g : LinearGraph C α) (shared : Bool) (state : State C α) (x : Vectors C α) : Prop where
  represents : ∃ σ : Point g, Represents g σ state x ∧ (σ.gamma = 0 → σ.p = 0)
  fills : shared = true → x.Fills g.unknowns

omit [FactorFamily C] in
theorem Poised.fits (h : Poised g shared state x) : x.Fits g.unknowns := by
  obtain ⟨σ, hσ, -⟩ := h.represents
  exact hσ.fits

/-- No step fails. -/
theorem Poised.step (hg : g.WellFormed) (h : Poised g shared state x) (config : Config α) :
    ∃ next x', Poised g shared next x' ∧
      (step config g shared state x = .ok (.stopped next.step next.gamma) x' ∨
        step config g shared state x = .ok (.continued next) x') := by
  obtain ⟨σ, hσ, hrest⟩ := h.represents
  by_cases hstop : ¬ config.precision < state.gamma ∨ σ.curvature g.matrix = 0
  · exact ⟨state, x, h, .inl (step_stops hg hσ hstop)⟩
  · rw [not_or, not_not] at hstop
    -- the image of a zero direction would vanish
    have hne : σ.gamma ≠ 0 := fun hzero => hstop.2 (by
      simp [Conjugate.Iterate.curvature, Conjugate.Iterate.image, hrest hzero])
    obtain ⟨f, next, x', hnext, -, -, hfills, -, hrun⟩ :=
      step_toward hg hσ hstop.1 hstop.2 hne h.fills
    have hpoised : Poised g shared next x' := by
      refine ⟨⟨_, hnext, fun hzero => ?_⟩, fun hshared => hfills (h.fills hshared)⟩
      have hf : f = 0 := Conjugate.Iterate.s_eq_zero_iff.1 hzero
      simp [toward, hf]
    refine ⟨next, x', hpoised, ?_⟩
    rw [hrun]
    split
    · exact .inl rfl
    · exact .inr rfl

theorem Poised.loop (hg : g.WellFormed) (config : Config α) (budget : Nat) {state : State C α}
    {x : Vectors C α} (h : Poised g shared state x) : ∃ last x', Poised g shared last x' ∧
      Cgls.loop config g shared budget state x = .ok (last.step, last.gamma) x' := by
  induction budget generalizing state x with
  | zero => exact ⟨state, x, h, rfl⟩
  | succ budget ih =>
    obtain ⟨next, x', hnext, hstop | hgo⟩ := h.step hg config
    · refine ⟨next, x', hnext, ?_⟩
      rw [Cgls.loop, Edit.bind_ok hstop]
      rfl
    · obtain ⟨last, x'', hlast, hloop⟩ := ih hnext
      refine ⟨last, x'', hlast, ?_⟩
      rw [Cgls.loop, Edit.bind_ok hgo]
      exact hloop

/-- The solver returns from every start that fits the template, also from the template itself. -/
theorem solve_returns (hg : g.WellFormed) (hx : x₀.Fits g.unknowns)
    (hshared : shared = true → x₀ = g.template) (config : Config α) :
    ∃ n gamma x, solve config g shared x₀ = .ok (n, gamma) x ∧ x.Fits g.unknowns := by
  obtain ⟨state, hstate, -, hσ⟩ := start_represents hg hx
  have hpoised : Poised g shared state x₀ :=
    ⟨⟨_, hσ, Conjugate.Iterate.s_eq_zero_iff.1⟩, fun h => hshared h ▸ hg.template_fills⟩
  obtain ⟨last, x, hlast, hloop⟩ := hpoised.loop hg config config.maxIterations.toNat
  refine ⟨last.step, last.gamma, x, ?_, hlast.fits⟩
  rw [solve, Edit.get_bind, Edit.lift_bind hstate, hloop]

end Cgls

variable {C α : Type} [DecidableEq C] [FactorFamily C] [LinearOrder α] [ExactScalar α]
  {L : Layout C} {graph : FactorGraph C α}

/-! ## Gradient descent -/

namespace GradientDescent

variable {r : Run (Store C α) α}

theorem step_returns (hgraph : graph.Evaluable L) (hr : r.point.Ready L)
    (config : Config α) :
    ∃ e r', step config graph r = .ok e r' ∧ r'.point.Ready L := by
  obtain ⟨G, hG, hwithin⟩ := hgraph.gradient hr
  obtain ⟨d, hd, hdrep⟩ := Vectors.Represents.scaled ⟨hwithin, rfl⟩ (-config.learningRate)
  obtain ⟨s', hs', hready⟩ := hr.moved hdrep.within
  have hmove : Store.move d.buffers r.point = .ok () s' := Store.moveAlong_of_moved hs'
  obtain ⟨e, he⟩ := hgraph.error hready
  refine ⟨e, ⟨s', r.events⟩, ?_, hready⟩
  unfold step
  rw [Edit.bind_ok (m := Solve.point) rfl, hG, Edit.bind_ok (m := Solve.run _) rfl, hd,
    Edit.bind_ok (m := Solve.run _) rfl, Edit.bind_ok (Solve.onPoint_ok hmove),
    Edit.bind_ok (m := Solve.point) rfl, he]
  rfl

theorem loop_returns (hgraph : graph.Evaluable L) (config : Config α) (left i : Nat)
    (history : Array α) {r : Run (Store C α) α} (hr : r.point.Ready L) :
    ∃ errors r', loop config graph left i history r = .ok errors r' ∧ r'.point.Ready L := by
  induction left generalizing i history r with
  | zero => exact ⟨history, r, rfl, hr⟩
  | succ left ih =>
    obtain ⟨e, r₁, hstep, hr₁⟩ := step_returns hgraph hr config
    obtain ⟨r₂, hreport, hpoint⟩ :=
      Solve.reportIf_ok config.verbosity.showsIterations (.descended i e) r₁
    obtain ⟨errors, r', hloop, hr'⟩ := ih (i + 1) (history.push e) (hpoint ▸ hr₁)
    refine ⟨errors, r', ?_, hr'⟩
    rw [loop, Edit.bind_ok hstep, Edit.bind_ok hreport, hloop]

theorem optimize_returns (hgraph : graph.Evaluable L) (hr : r.point.Ready L)
    (config : Config α) : ∃ summary r', optimize config graph r = .ok summary r' := by
  obtain ⟨e, he⟩ := hgraph.error hr
  obtain ⟨errors, r', hloop, -⟩ :=
    loop_returns hgraph config config.maxIterations.toNat 0 #[e] hr
  refine ⟨⟨config.maxIterations, config.maxIterations, errors, #[]⟩, r', ?_⟩
  unfold optimize
  rw [Edit.bind_ok (m := Solve.point) rfl, he, Edit.bind_ok (m := Solve.run _) rfl,
    Edit.bind_ok hloop]
  rfl

end GradientDescent

/-! ## The damped solver -/

omit [FactorFamily C] in
/-- Values without tangent vectors stay where they are in every move. -/
theorem Store.valuesOf_movedAlong {s s' : Store C α} {steps : List (Vectors C α)}
    (h : s.movedAlong steps = .ok s') {T : VariableType} (hT : T.isDifferentiable = false) :
    s'.valuesOf T = s.valuesOf T := by
  induction steps generalizing s with
  | nil =>
    cases h
    rfl
  | cons step steps ih =>
    obtain ⟨t, ht, h⟩ := Checked.bind_eq_ok h
    rw [ih h, valuesOf_moved ht hT]

namespace LevenbergMarquardt

open Solve

variable {config : Config α} {linear : LinearGraph C α} {stage : Stage C α} {state : State α}
  {steps : List (Vectors C α)} {r₀ r : Run (Store C α) α}

/-- An iteration begins wherever the graph can be evaluated. -/
theorem exists_enter (hgraph : graph.Evaluable L) (hr : r.point.Ready L)
    (config : Config α) (state : State α) :
    ∃ linear r', enter config graph state r = .ok linear r' := by
  obtain ⟨linear, hlinear⟩ := hgraph.linearize hr
  obtain ⟨n, hn⟩ := hgraph.factorCount
  exact ⟨linear, enter_of_linearize hn hlinear config state⟩

theorem Between.ready (hr : Regular config graph r₀) (hready : r₀.point.Ready L)
    (h : Between config graph r₀ stage state steps r) : r.point.Ready L := by
  have hsettled := hr.settled h
  refine ⟨hsettled.wellFormed, hsettled.layout.trans hready.layout, ?_⟩
  intro T hT hlabel place hplace
  rw [Store.valuesOf_movedAlong h.kept.moved hlabel]
  exact hready.labelled T hT hlabel place hplace

/-- A trial of a regular solve is judged, whatever its step. -/
theorem exists_attempt (hgraph : graph.Evaluable L) (hr : Regular config graph r₀)
    (hready : r₀.point.Ready L) {trialsLeft left : Nat}
    (h : Between config graph r₀ (.trying linear (trialsLeft + 1) left) state steps r) :
    ∃ step before after p error, Attempt config graph linear state r step before after p error := by
  have hpoint := h.ready hr hready
  obtain ⟨hdampable, htangent⟩ := (hr.settled h).dampable hr
  obtain ⟨buffers, last, step, before, after, -, -, halong, -, -, -, -, hrun⟩ :=
    dampedStep_spec hdampable config (hr.lambda_nonneg h)
  have hwithin : step.Within linear.unknowns := halong.within hdampable.wellFormed.template_fills.within
  obtain ⟨p, hp, hpready⟩ := hpoint.moved (htangent.within hwithin)
  obtain ⟨error, herror⟩ := hgraph.error hpready
  exact ⟨step, before, after, p, error, hrun r, hp, herror⟩

/-- The solver returns or gives up. -/
theorem optimize_returns (hgraph : graph.Evaluable L) (hr : Regular config graph r₀)
    (hready : r₀.point.Ready L) :
    (∃ summary r, optimize config graph r₀ = .ok summary r) ∨
      ∃ lambda n r, optimize config graph r₀ = .error (.gaveUp lambda n) r := by
  have hended := optimize_ended config graph r₀
  generalize optimize config graph r₀ = result at hended ⊢
  cases hended with
  | unread herror =>
    obtain ⟨e, he⟩ := hgraph.error hready
    cases he.symm.trans herror
  | unentered hb _ henter =>
    obtain ⟨linear, r', hr'⟩ := exists_enter hgraph (hb.ready hr hready) config _
    cases hr'.symm.trans henter
  | @stuck linear trialsLeft left state steps r e r' hb htrial =>
    have hout := trial_outcome config graph linear state r
    rw [htrial] at hout
    cases hout with
    | gaveUp => exact .inr ⟨_, _, _, rfl⟩
    | failed himpossible =>
      obtain ⟨step, before, after, p, error, hattempt⟩ := exists_attempt hgraph hr hready hb
      obtain ⟨-, e, he⟩ := himpossible _ _ _ _ _ hattempt
      obtain ⟨next, hnext⟩ := exists_relaxed hr.lambdaFactor.ne' state.lambda
      cases hnext.symm.trans he
  | finished => exact .inl ⟨_, _, rfl⟩
  | converged => exact .inl ⟨_, _, rfl⟩

end LevenbergMarquardt

/-! ## All solvers -/

namespace FactorGraph

/-- On the linearisation of a graph that can be evaluated, damped or not, conjugate gradients return
from every start that fits the template. Gradient descent returns, and the damped solver returns or
gives up. -/
theorem Evaluable.solves (hgraph : graph.Evaluable L) (hundamped : graph.Undamped)
    {s : Store C α} (hs : s.Ready L) :
    (∃ linear, graph.linearize s = .ok linear ∧
      (∀ c, ∃ problem, linear.damped c = .ok problem) ∧
      ∀ problem, problem = linear ∨ (∃ c, linear.damped c = .ok problem) →
        ∀ (config : Cgls.Config α) (shared : Bool) (x : Vectors C α), x.Fits linear.unknowns →
          (shared = true → x = linear.template) → ∃ n gamma x',
            Cgls.solve config problem shared x = .ok (n, gamma) x' ∧ x'.Fits linear.unknowns) ∧
    (∀ (config : GradientDescent.Config α) events,
      ∃ summary r, GradientDescent.optimize config graph ⟨s, events⟩ = .ok summary r) ∧
    ∀ (config : LevenbergMarquardt.Config α) events, 0 ≤ config.lambdaInitial →
      0 ≤ config.lambdaMin → 0 < config.lambdaFactor →
      (∃ summary r, LevenbergMarquardt.optimize config graph ⟨s, events⟩ = .ok summary r) ∨
        ∃ lambda n r,
          LevenbergMarquardt.optimize config graph ⟨s, events⟩ = .error (.gaveUp lambda n) r := by
  have hproper : graph.Proper s.layout := hs.layout ▸ hgraph.proper
  refine ⟨?_, fun config events => GradientDescent.optimize_returns hgraph hs config,
    fun config events hinitial hmin hfactor => LevenbergMarquardt.optimize_returns hgraph
      ⟨hs.wellFormed, hproper, hundamped, hinitial, hmin, hfactor⟩ hs⟩
  obtain ⟨linear, hlinear⟩ := hgraph.linearize hs
  have hdampable := hproper.dampable hs.wellFormed hundamped hlinear
  refine ⟨linear, hlinear, fun c => (hdampable.damped c).imp' linear.withBuffers fun _ h => h.1, ?_⟩
  rintro problem (rfl | ⟨c, hc⟩) config shared x hx hshared
  · exact Cgls.solve_returns hdampable.wellFormed hx hshared config
  · obtain ⟨buffers, hdamped, hentries⟩ := hdampable.damped c
    obtain rfl := Except.ok.inj (hdamped.symm.trans hc)
    exact Cgls.solve_returns (hdampable.wellFormed_withBuffers hentries) hx hshared config

/-- On a graph of factors stored one by one, each of which can be evaluated, no solver fails at a store
of values stored one by one. On its linearisation, damped or not, conjugate gradients return from every
start that fits the template. Gradient descent returns, and the damped solver returns or gives up. -/
theorem solves_of_stored {forms : VariableType → Tree (Kind × Shape)}
    {ops : List (Store.Operation C α)} {s : Store C α} {fs : List (FactorLiteral C α)}
    (hs : Store.empty.run ops = .ok s) (hops : Store.Uniform forms ops)
    (hforms : ∀ T, 0 < Store.storedCount T ops → forms T = T.form)
    (hgraph : ofFactors fs = .ok graph) (hfs : Solvable s.layout fs) :
    (∃ linear, graph.linearize s = .ok linear ∧
      (∀ c, ∃ problem, linear.damped c = .ok problem) ∧
      ∀ problem, problem = linear ∨ (∃ c, linear.damped c = .ok problem) →
        ∀ (config : Cgls.Config α) (shared : Bool) (x : Vectors C α), x.Fits linear.unknowns →
          (shared = true → x = linear.template) → ∃ n gamma x',
            Cgls.solve config problem shared x = .ok (n, gamma) x' ∧ x'.Fits linear.unknowns) ∧
    (∀ (config : GradientDescent.Config α) events,
      ∃ summary r, GradientDescent.optimize config graph ⟨s, events⟩ = .ok summary r) ∧
    ∀ (config : LevenbergMarquardt.Config α) events, 0 ≤ config.lambdaInitial →
      0 ≤ config.lambdaMin → 0 < config.lambdaFactor →
      (∃ summary r, LevenbergMarquardt.optimize config graph ⟨s, events⟩ = .ok summary r) ∨
        ∃ lambda n r,
          LevenbergMarquardt.optimize config graph ⟨s, events⟩ = .error (.gaveUp lambda n) r := by
  obtain ⟨hevaluable, hundamped⟩ := evaluable_of_ofFactors hgraph hfs
  exact hevaluable.solves hundamped (Store.ready_of_run hops hforms hs)

/-! ## Graphs over the rationals -/

/-- A point of the plane is drawn to a place, by weights for its coordinates. -/
def tow (i : Nat) (x y : ℚ) : FactorLiteral Catalogue ℚ :=
  ⟨.prior, [⟨.real 2, .int i⟩], [.leaf (.array .device (.reals (.vector #[x, y]))),
    (Noise.diagonal (.reals (.vector #[1, 2]))).tree (Item.array .device)]⟩

/-- A link between two points. -/
def rope : FactorLiteral Catalogue ℚ :=
  ⟨.jacobian, [⟨.real 2, .int 0⟩, ⟨.real 2, .int 1⟩],
    [.node .tuple [.leaf (.array .device (.full [1, 2] 1)), .leaf (.array .device (.full [1, 2] (-1)))],
      .leaf (.array .device (.full [1] 3))]⟩

/-- Two points that are drawn, with the link stored in between. -/
def towed : List (FactorLiteral Catalogue ℚ) := [tow 0 1 2, rope, tow 1 3 4]

def towedPoints : List (Store.Operation Catalogue ℚ) :=
  [.insert (Store.point 0 0) none, .insert (Store.point 5 6) none]

theorem towedPoints_uniform : Store.Uniform (fun _ => .leaf (.real, [2])) towedPoints := by
  refine Store.Uniform.of_each (fun T => by simp [Tree.leaves]) (fun {x type T v} hmem _ hv => ?_)
    (fun op hop T k v w hv hw => ?_) fun before h x after hops => ?_
  · simp only [towedPoints, List.mem_cons, Store.Operation.insert.injEq, List.not_mem_nil,
      or_false] at hmem
    rcases hmem with ⟨rfl, -⟩ | ⟨rfl, -⟩ <;>
    · cases hv
      rfl
  · simp only [towedPoints, List.mem_cons, List.not_mem_nil, or_false] at hop
    rcases hop with rfl | rfl <;>
    · obtain rfl := Except.ok.inj hw
      exact hv
  · have hmem : Store.Operation.write h x ∈ towedPoints := by simp [hops]
    simp [towedPoints] at hmem

theorem towed_solvable {L : Layout Catalogue} (hkey : Key.type (.real 2) ∈ L.keys)
    (hrows : L.rows (.type (.real 2)) = 2) : Solvable L towed := by
  have hrange : ∀ {i : Nat}, i < 2 → Handle.InRange L (⟨.real 2, .int i⟩ : Handle (Item ℚ)) :=
    fun {i} hi => ⟨hkey, i, rfl, hi.trans_eq hrows.symm⟩
  have htow : ∀ {i : Nat} {x y : ℚ}, i < 2 → (tow i x y).Solvable L [.real 2] 2 := by
    intro i x y hi
    have hstored : (tow i x y).stored? = some ⟨.prior, [⟨.real 2, .int i⟩],
        [.leaf (.reals (.vector #[x, y])), (Noise.diagonal (.reals (.vector #[1, 2]))).tree id]⟩ := by
      interval_cases i <;> rfl
    refine Factor.solvable_of_affine hstored (List.forall_mem_singleton.2 (hrange hi)) (fun b hb => ?_)
      (Factor.affineIn_prior rfl rfl (.diagonal rfl)) rfl ⟨nofun, nofun⟩ nofun (by simp) trivial
    rcases List.mem_pair.1 hb with rfl | rfl <;> rfl
  have hrope : rope.Solvable L [.real 2, .real 2] 1 := by
    have hvector : ∀ a ∈ [(⟨.real 2, .int 0⟩ : Handle (Block ℚ)), ⟨.real 2, .int 1⟩],
        a.type.IsVector := by
      simp [VariableType.isVector_real]
    have hshapes : List.Forall₂ (fun (a : Handle (Block ℚ)) (B : Block ℚ) =>
        B.shape = [1, a.type.tangentDim]) [⟨.real 2, .int 0⟩, ⟨.real 2, .int 1⟩]
        [.full [1, 2] 1, .full [1, 2] (-1)] := .cons rfl (.cons rfl .nil)
    have hstored : rope.stored? = some ⟨.jacobian, [⟨.real 2, .int 0⟩, ⟨.real 2, .int 1⟩],
        [.node .tuple ([.full [1, 2] 1, .full [1, 2] (-1)].map .leaf), .leaf (.full [1] 3)]⟩ := rfl
    refine Factor.solvable_of_affine hstored ?_ (fun b hb => ?_)
      (Factor.affineBy_jacobian (by simp) hvector hshapes rfl).toAffineIn rfl ⟨nofun, nofun⟩ nofun
      (by simp) ⟨?_, 1, _, _, _, rfl, hshapes, rfl⟩
    · exact List.forall_mem_cons.2 ⟨hrange (i := 0) (by omega),
        List.forall_mem_singleton.2 (hrange (i := 1) (by omega))⟩
    · rcases List.mem_cons.1 hb with rfl | hb
      · rfl
      · rcases List.mem_pair.1 hb with rfl | rfl <;> rfl
    · simp [Factor.types, VariableType.isVector_real]
  intro k
  by_cases hk : k.kind = .prior
  · refine ⟨[.real 2], 2, fun f hf => ?_⟩
    have hkind : f.kind = .prior := (congrArg GroupKey.kind (key_of_mem_members hf)).trans hk
    simp only [members, towed, List.mem_filter, List.mem_cons, List.not_mem_nil, or_false] at hf
    rcases hf.1 with rfl | rfl | rfl
    · exact htow (by omega)
    · cases hkind
    · exact htow (by omega)
  · refine ⟨[.real 2, .real 2], 1, fun f hf => ?_⟩
    have hkind : f.kind ≠ .prior := fun h =>
      hk ((congrArg GroupKey.kind (key_of_mem_members hf)).symm.trans h)
    simp only [members, towed, List.mem_filter, List.mem_cons, List.not_mem_nil, or_false] at hf
    rcases hf.1 with rfl | rfl | rfl
    · exact absurd rfl hkind
    · exact hrope
    · exact absurd rfl hkind

theorem towed_solves : ∃ s graph, Store.empty.run towedPoints = .ok s ∧ ofFactors towed = .ok graph ∧
    (∃ summary r, GradientDescent.optimize .standard graph ⟨s, #[]⟩ = .ok summary r) ∧
    ((∃ summary r, LevenbergMarquardt.optimize LevenbergMarquardt.dampedConfig graph ⟨s, #[]⟩ =
        .ok summary r) ∨
      ∃ lambda n r, LevenbergMarquardt.optimize LevenbergMarquardt.dampedConfig graph ⟨s, #[]⟩ =
        .error (.gaveUp lambda n) r) ∧
    ∃ linear problem n gamma x, graph.linearize s = .ok linear ∧ linear.damped 1 = .ok problem ∧
      Cgls.solve .standard problem false ⟨.empty⟩ = .ok (n, gamma) x := by
  obtain ⟨s, hs⟩ : ∃ s, Store.empty.run towedPoints = .ok s := ⟨_, rfl⟩
  obtain ⟨graph, hgraph⟩ : ∃ graph, ofFactors towed = .ok graph := ⟨_, rfl⟩
  obtain ⟨hkey, hrows⟩ := (Store.Refines.run towedPoints_uniform hs).rows towedPoints_uniform
    (T := .real 2) (by decide)
  obtain ⟨⟨linear, hlinear, hdamped, hcgls⟩, hdescent, hsolver⟩ :=
    solves_of_stored hs towedPoints_uniform (fun T hT => by
      obtain ⟨before, x, type, after, hinserts, hstored, -⟩ := Store.exists_origin hT
      have hmem : Store.Operation.insert x type ∈ towedPoints := by simp [hinserts]
      simp only [towedPoints, List.mem_cons, Store.Operation.insert.injEq, List.not_mem_nil,
        or_false] at hmem
      rcases hmem with ⟨rfl, rfl⟩ | ⟨rfl, rfl⟩ <;>
      · cases hstored
        rfl)
      hgraph (towed_solvable hkey hrows)
  obtain ⟨problem, hproblem⟩ := hdamped 1
  obtain ⟨n, gamma, x, hx, -⟩ := hcgls problem (.inr ⟨1, hproblem⟩) .standard false ⟨.empty⟩
    (fun key _ => .inl rfl) nofun
  exact ⟨s, graph, hs, hgraph, hdescent .standard #[],
    hsolver LevenbergMarquardt.dampedConfig #[] (by decide +kernel) (by decide +kernel)
      (by decide +kernel), linear, problem, n, gamma, x, hlinear, hproblem, hx⟩

/-- A number that is to be zero, and two constant residuals with three coordinates, connected to
nothing. -/
def loose : List (FactorLiteral Catalogue ℚ) :=
  let constant : FactorLiteral Catalogue ℚ :=
    ⟨.jacobian, [], [.node .tuple [], .leaf (.array .device (.reals (.vector #[1, 2, 3])))]⟩
  [⟨.jacobian, [⟨.real 1, .int 0⟩], [.node .tuple [.leaf (.array .device (.full [1, 1] 1))],
    .leaf (.array .device (.full [1] 0))]⟩, constant, constant]

/-- Two errors of the graph, and whether conjugate gradients return from zero. -/
def looseRun : Checked (ℚ × Bool) := do
  let s ← (Store.empty : Store Catalogue ℚ).run
    [.insert (.leaf (.array .device (.reals (.vector #[2])))) (some (.real 1))]
  let graph ← ofFactors loose
  let linear ← graph.linearize s
  return (← graph.error s.bulk, match Cgls.solve .standard linear false ⟨.empty⟩ with
    | .ok _ _ => true
    | .error _ _ => false)

/-- Factors that connect nothing have images without coordinates, which cannot be subtracted from their
residuals: conjugate gradients fail on the linearisation of a graph whose factors all evaluate. -/
theorem loose_fails : looseRun = .ok (16, false) := by decide +kernel

end FactorGraph

end LeastSquares
