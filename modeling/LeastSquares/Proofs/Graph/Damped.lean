import LeastSquares.Proofs.Buffer.Interpretation
import LeastSquares.Proofs.Graph.Adjoint
import LeastSquares.Proofs.Graph.Damping

/-!
# What damping adds

Damping a graph appends the stacks of a graph that has nothing but them. Operators of a graph with
appended stacks are those of its two parts added up, whatever classes the old stacks are of; if an old
stack fails, the whole fails in the same way. So the error grows by `s² / 2 ‖x‖²`, `Aᵀ A x` by `s² x`,
and `Aᵀ b` stays. The keys of the stacks keep a graph from being damped twice.
-/

namespace LeastSquares

namespace LinearGraph

section Definitions

variable {C α : Type} [DecidableEq C] [FactorFamily C] [Scalar α]

/-- `Aᵀ A x`. -/
def normal (g : LinearGraph C α) (x : Vectors C α) : Checked (Vectors C α) := do
  g.adjoint (← g.forward x.bulk).buffers

/-- `Aᵀ b`: the residuals at zero are `-b`. -/
def moment (g : LinearGraph C α) : Checked (Vectors C α) := do
  g.adjoint (← (← g.residuals g.template.bulk).neg).buffers

end Definitions

variable {C α : Type} [DecidableEq C] [FactorFamily C] [LinearOrder α] [ExactScalar α]
  {g g' : LinearGraph C α} {s : α}

/-! ## Graphs with appended stacks -/

section Appended

variable {old new all : Buffers C α} {x y y' d : Vectors C α}

omit [DecidableEq C] [FactorFamily C] [LinearOrder α] [ExactScalar α] in
/-- The vectors of a collection are followed by those of another. -/
abbrev Appends (y d y' : Vectors C α) : Prop :=
  y'.buffers.entries = y.buffers.entries ++ d.buffers.entries

omit [FactorFamily C] [LinearOrder α] [ExactScalar α] in
theorem overGroups_appended (hall : all.entries = old.entries ++ new.entries)
    {rule : FactorStack C α → Checked (Block α)}
    (hd : (g.withBuffers new).overGroups rule = .ok d) :
    d.buffers.keys = new.keys ∧
      Checked.Alike (fun y y' => y.buffers.keys = old.keys ∧ Appends y d y')
        ((g.withBuffers old).overGroups rule) ((g.withBuffers all).overGroups rule) := by
  obtain ⟨t, ht, hd⟩ := Checked.bind_eq_ok hd
  cases hd
  exact ⟨Table.keys_mapM ht, (Table.mapM_appended hall ht).bind fun y y' h => .ok h⟩

theorem neg_appended (h : Appends y d y') {e : Vectors C α} (he : d.neg = .ok e) :
    e.buffers.keys = d.buffers.keys ∧
      Checked.Alike (fun z z' => z.buffers.keys = y.buffers.keys ∧ Appends z e z') y.neg y'.neg := by
  obtain ⟨t, ht, he⟩ := Checked.bind_eq_ok he
  cases he
  exact ⟨Table.keys_mapM ht, (Table.mapM_appended h ht).bind fun z z' h => .ok h⟩

theorem error_appended (hall : all.entries = old.entries ++ new.entries) {read : Reader α} {e : α}
    (he : (g.withBuffers new).error read = .ok e) :
    Checked.Alike (fun n n' => n' = n + e) ((g.withBuffers old).error read)
      ((g.withBuffers all).error read) := by
  obtain ⟨d, hd, he⟩ := Checked.bind_eq_ok he
  obtain ⟨m, hm, he⟩ := Checked.bind_eq_ok he
  cases he
  refine (overGroups_appended hall hd).2.bind fun y y' hy => ?_
  refine (Vectors.squaredNorm_appended hy.2 hm).bind fun n n' hn => .ok ?_
  rw [hn, mul_add]

theorem fills_adjoint (htemplate : g.template.Fills g.unknowns) {z : Vectors C α}
    (h : g.adjoint y.buffers = .ok z) : z.Fills g.unknowns := by
  refine Checked.foldlM_preserves (P := (Vectors.Fills · g.unknowns)) (fun e out next hnext hout => ?_)
    h htemplate
  dsimp only at hnext
  split at hnext
  · cases hnext
    exact hout
  · obtain ⟨f, -, hnext⟩ := Checked.bind_eq_ok hnext
    obtain ⟨rows, -, hnext⟩ := Checked.bind_eq_ok hnext
    exact Factor.fills_stackAdjoint hout hnext

open Matrix

/-- The adjoint of the appended stacks is added to that of the old ones. -/
theorem adjoint_appended (hall : all.entries = old.entries ++ new.entries)
    (hnew : (g.withBuffers new).WellFormed) (hy : y.buffers.keys = old.keys)
    (hd : d.buffers.keys = new.keys) (h : Appends y d y') {f : (g.withBuffers new).equations.cells → α}
    (hf : d.Represents (g.withBuffers new).equations f) :
    Checked.Alike (fun z z' => z.Within g.unknowns ∧ z'.Within g.unknowns ∧
        ∀ u : g.unknowns.cells, z'.coordinate u =
          z.coordinate u + ((g.withBuffers new).matrixᵀ *ᵥ f) u)
      ((g.withBuffers old).adjoint y.buffers) ((g.withBuffers all).adjoint y'.buffers) := by
  have hbuffer : ∀ {z : Vectors C α} {key}, y'.buffers.get? key = z.buffers.get? key →
      y'.buffers.buffer key = z.buffers.buffer key := fun h => by
    rw [Buffers.buffer, Buffers.buffer, h]
  have hstart : (g.withBuffers old).adjoint y'.buffers = (g.withBuffers old).adjoint y.buffers := by
    refine Checked.foldlM_congr (fun e he out => ?_) _
    have hkey : e.1 ∈ y.buffers.keys := hy ▸ List.mem_map_of_mem he
    simp only [hbuffer (Table.get?_appended_left h hkey)]
  have hrest : (g.withBuffers new).adjointInto y'.buffers =
      (g.withBuffers new).adjointInto d.buffers := by
    funext out
    refine Checked.foldlM_congr (fun e he out => ?_) _
    have hkey : e.1 ∈ d.buffers.keys := hd ▸ List.mem_map_of_mem he
    simp only [adjointStep, hbuffer (Table.get?_appended_right h hkey)]
  have hsplit : (g.withBuffers all).adjoint y'.buffers =
      (g.withBuffers old).adjoint y.buffers >>= (g.withBuffers new).adjointInto d.buffers := by
    rw [← hstart, ← hrest]
    unfold adjoint
    rw [show (g.withBuffers all).buffers.entries = _ from hall, List.foldlM_append]
    rfl
  rw [hsplit]
  cases hout : (g.withBuffers old).adjoint y.buffers with
  | error e => exact .error e
  | ok out =>
    have hfills : out.Fills g.unknowns := fills_adjoint (g := g.withBuffers old) hnew.template_fills hout
    obtain ⟨z, hz, hzfills, hcoordinate⟩ := hnew.adjoint_into hf.within.fits hfills
    rw [Checked.ok_bind, hz]
    refine .ok ⟨hfills.within, hzfills.within, fun u => ?_⟩
    rw [hcoordinate u u.2, Vectors.sum_onCells (g.withBuffers new).equations fun e =>
      d.coordinate e * (g.withBuffers new).coefficient e u]
    refine congrArg _ (Finset.sum_congr rfl fun e _ => ?_)
    rw [hf.coordinate, mul_comm]
    rfl

end Appended

/-! ## The appended stacks -/

section Damping

open Matrix

variable {x : Vectors C α} {buffers : Buffers C α}

omit [FactorFamily C] in
/-- A graph without stacks can be damped. -/
theorem ZeroTemplate.dampable (h : g.ZeroTemplate) : (g.withBuffers .empty).Dampable where
  wellFormed :=
    { template := fun key b hb => by
        obtain ⟨T, n, t, rfl, -, hholds⟩ := h (key, b) (Table.get?_eq_some_iff.1 hb)
        exact .inr ⟨T, n, t, rfl, hholds⟩
      groups := fun key b hb => by cases hb }
  template := h
  undamped _ _ := List.not_mem_nil

/-- The graph of nothing but the stacks that damp. -/
structure Damper (g : LinearGraph C α) (s : α) (buffers : Buffers C α) : Prop where
  template : g.ZeroTemplate
  entries : buffers.entries = g.template.buffers.keys.map (dampingEntry g.unknowns s)

namespace Damper

variable (h : g.Damper s buffers)

include h

omit [FactorFamily C] in
theorem wellFormed : (g.withBuffers buffers).WellFormed :=
  h.template.dampable.wellFormed_withBuffers h.entries

omit [FactorFamily C] in
theorem slope (z : (g.withBuffers buffers).unknowns.cells → α) :
    (g.withBuffers buffers).matrixᵀ *ᵥ
      ((g.withBuffers buffers).rhs - (g.withBuffers buffers).matrix *ᵥ z) = -(s ^ 2 • z) := by
  refine (h.template.dampable.normal_withBuffers h.entries z).trans ?_
  rw [← zero_sub]
  refine congrArg (· - s ^ 2 • z) (funext fun u => ?_)
  rw [mulVec, dotProduct]
  exact Finset.sum_eq_zero fun e _ => absurd e.2 (Finset.notMem_empty _)

omit [FactorFamily C] in
theorem normal_eq (z : (g.withBuffers buffers).unknowns.cells → α) :
    (g.withBuffers buffers).matrixᵀ *ᵥ ((g.withBuffers buffers).matrix *ᵥ z) = s ^ 2 • z := by
  have hzero := h.slope 0
  have hz := h.slope z
  rw [mulVec_zero, sub_zero, smul_zero, neg_zero] at hzero
  rw [mulVec_sub, hzero, zero_sub] at hz
  exact neg_injective hz

theorem error_eq (hx : x.Within g.unknowns) :
    ∃ n, x.squaredNorm = .ok n ∧ (g.withBuffers buffers).error x.bulk = .ok (s ^ 2 / 2 * n) := by
  have hrepresents : x.Represents g.unknowns (x.onCells g.unknowns) := ⟨hx, rfl⟩
  refine ⟨_, hrepresents.squaredNorm, (h.wellFormed.error_eq hx.fits).trans (congrArg Except.ok ?_)⟩
  let z := x.onCells (g.withBuffers buffers).unknowns
  have hdot : ((g.withBuffers buffers).rhs - (g.withBuffers buffers).matrix *ᵥ z) ⬝ᵥ
      ((g.withBuffers buffers).rhs - (g.withBuffers buffers).matrix *ᵥ z) = 0 + s ^ 2 * (z ⬝ᵥ z) := by
    refine (h.template.dampable.residual_dot_withBuffers h.entries z).trans ?_
    refine congrArg (· + s ^ 2 * (z ⬝ᵥ z)) ?_
    exact Finset.sum_eq_zero fun e _ => absurd e.2 (Finset.notMem_empty _)
  calc 1 / 2 * (((g.withBuffers buffers).rhs - (g.withBuffers buffers).matrix *ᵥ z) ⬝ᵥ
        ((g.withBuffers buffers).rhs - (g.withBuffers buffers).matrix *ᵥ z))
      = 1 / 2 * (0 + s ^ 2 * (z ⬝ᵥ z)) := by rw [hdot]
    _ = s ^ 2 / 2 * (z ⬝ᵥ z) := by ring

end Damper

/-! ## The damped graph -/

theorem ZeroTemplate.exists_damper (h : g.ZeroTemplate) (s : α) :
    ∃ buffers : Buffers C α, g.Damper s buffers := by
  obtain ⟨buffers, -, hentries⟩ := h.dampable.damped s
  exact ⟨buffers, h, hentries⟩

omit [LinearOrder α] [ExactScalar α] in
theorem damped_eq_ok [Scalar α] (h : g.damped s = .ok g') : damp s g = .ok () g' := by
  unfold damped at h
  split at h
  · next hdamp =>
    cases h
    exact hdamp
  · cases h

/-- Damping that succeeds appends one stack for each type of the template. -/
theorem ZeroTemplate.damp_eq (h : g.ZeroTemplate) (hdamp : damp s g = .ok () g') :
    ∃ all : Buffers C α, g' = g.withBuffers all ∧
      all.entries = g.buffers.entries ++ g.template.buffers.keys.map (dampingEntry g.unknowns s) := by
  have hrows := fun e he => h.rows (e := e) he
  obtain ⟨all, hall, hentries⟩ := dampAlong_entries hrows g.template.buffers.distinct
    fun T hT => fresh_of_dampAlong hrows g.template.buffers.distinct hdamp hT
  cases hall.symm.trans hdamp
  exact ⟨all, rfl, hentries⟩

/-- A damped graph is not damped again. -/
theorem ZeroTemplate.damp_again (h : g.ZeroTemplate) (hsome : g.template.buffers.entries ≠ [])
    {all : Buffers C α} (hall : all.entries =
      g.buffers.entries ++ g.template.buffers.keys.map (dampingEntry g.unknowns s)) (t : α) :
    ∃ T : VariableType, damp t (g.withBuffers all) = .error (.broken (.undamped T.name)) (g.withBuffers all) := by
  obtain ⟨⟨key, zeros⟩, rest, hentries⟩ := List.exists_cons_of_ne_nil hsome
  obtain ⟨T, zero, hkey, hzeros, hn, hshape⟩ := h.rows (e := (key, zeros)) (by simp [hentries])
  obtain rfl : key = .type T := hkey
  have hmem : Key.group (dampingGroup T) ∈ all.keys := by
    rw [Table.keys, hall, Table.keys, hentries]
    simp [dampingEntry]
  refine ⟨T, ?_⟩
  unfold damp
  rw [Edit.get_bind, show (g.withBuffers all).template.buffers.entries = _ from hentries]
  exact dampAlong_damped hzeros hshape hn hmem t rest

/-- Vectors that grow by vectors, in the operations of the program. -/
theorem exists_add {L : Layout C} {v v' d : Vectors C α} (hv : v.Within L) (hv' : v'.Within L)
    (hd : d.Within L) (h : ∀ u ∈ L.cells, v'.coordinate u = v.coordinate u + d.coordinate u) :
    ∃ w, v.add d = .ok w ∧ v'.equal w = .ok true := by
  obtain ⟨w, hw, hwithin, hcoordinate⟩ := Vectors.add_of_within hv hd
  obtain ⟨r, hr, hiff⟩ := Vectors.equal_of_within hv' hwithin
  refine ⟨w, hw, hr.trans (congrArg Except.ok (hiff.2 (funext fun u => ?_)))⟩
  by_cases hu : u ∈ L.cells
  · rw [h u hu, hcoordinate]
  · rw [hv'.coordinate_eq_zero hu, hwithin.coordinate_eq_zero hu]

namespace Damper

variable {all : Buffers C α} (h : g.Damper s buffers)
  (hall : all.entries = g.buffers.entries ++ buffers.entries)

include h hall

theorem normal_damped (hx : x.Within g.unknowns) :
    ∃ d, x.scaled (s ^ 2) = .ok d ∧
      Checked.Alike (fun v v' => ∃ w, v.add d = .ok w ∧ v'.equal w = .ok true) (g.normal x)
        ((g.withBuffers all).normal x) := by
  obtain ⟨d, hd, hdwithin, hdcoordinate⟩ := Vectors.scaled_of_within hx (s ^ 2)
  obtain ⟨y, hy, hrepresents⟩ := h.wellFormed.forward_represents hx.fits
  obtain ⟨hkeys, halike⟩ := overGroups_appended hall hy
  refine ⟨d, hd, halike.bind fun z z' hz => ?_⟩
  refine (adjoint_appended hall h.wellFormed hz.1 hkeys hz.2 hrepresents).mono fun v v' hv => ?_
  obtain ⟨hv, hv', hsum⟩ := hv
  refine exists_add hv hv' hdwithin fun u hu => ?_
  rw [hsum ⟨u, hu⟩, h.normal_eq, hdcoordinate]
  rfl

theorem moment_damped :
    Checked.Alike (fun v v' => v'.equal v = .ok true) g.moment (g.withBuffers all).moment := by
  have hfills := h.wellFormed.template_fills
  obtain ⟨y, hy, hrepresents⟩ := h.wellFormed.residuals_represents hfills.within.fits
  obtain ⟨hkeys, halike⟩ := overGroups_appended hall hy
  obtain ⟨z, hz, hneg⟩ := hrepresents.neg
  refine halike.bind fun w w' hw => ?_
  obtain ⟨hzkeys, hnegalike⟩ := neg_appended hw.2 hz
  refine hnegalike.bind fun b b' hb => ?_
  refine (adjoint_appended hall h.wellFormed (hb.1.trans hw.1) (hzkeys.trans hkeys) hb.2 hneg).mono
    fun v v' hv => ?_
  obtain ⟨hv, hv', hsum⟩ := hv
  obtain ⟨r, hr, hiff⟩ := Vectors.equal_of_within hv' hv
  refine hr.trans (congrArg Except.ok (hiff.2 (funext fun u => ?_)))
  by_cases hu : u ∈ g.unknowns.cells
  · have hzero : g.template.coordinate u = 0 := h.wellFormed.template_zero hu
    rw [hsum ⟨u, hu⟩, neg_sub, h.slope]
    show v.coordinate u + -(s ^ 2 * g.template.coordinate u) = _
    rw [hzero, mul_zero, neg_zero, add_zero]
  · rw [hv.coordinate_eq_zero hu, hv'.coordinate_eq_zero hu]

end Damper

end Damping

/-- Damping adds one stack for each type of the template, the error `s² / 2 ‖x‖²` and the normal map
`s² x`, and keeps all else. It can be done once. -/
theorem ZeroTemplate.damp_once (hg : g.ZeroTemplate) (hsome : g.template.buffers.entries ≠ [])
    (h : damp s g = .ok () g') :
    g'.template = g.template ∧
    g'.buffers.entries =
      g.buffers.entries ++ g.template.buffers.keys.map (dampingEntry g.unknowns s) ∧
    (g.WellFormed → g'.WellFormed) ∧
    (∀ x : Vectors C α, x.Within g.unknowns → ∃ n d, x.squaredNorm = .ok n ∧
      x.scaled (s ^ 2) = .ok d ∧
      Checked.Alike (fun e e' => e' = e + s ^ 2 / 2 * n) (g.error x.bulk) (g'.error x.bulk) ∧
      Checked.Alike (fun v v' => ∃ w, v.add d = .ok w ∧ v'.equal w = .ok true)
        (g.normal x) (g'.normal x)) ∧
    Checked.Alike (fun v v' => v'.equal v = .ok true) g.moment g'.moment ∧
    ∀ t : α, ∃ T : VariableType, damp t g' = .error (.broken (.undamped T.name)) g' := by
  obtain ⟨all, rfl, hentries⟩ := hg.damp_eq h
  obtain ⟨buffers, hdamper⟩ := hg.exists_damper s
  have hall : all.entries = g.buffers.entries ++ buffers.entries := by rw [hentries, hdamper.entries]
  refine ⟨rfl, hentries, fun hwell => ⟨hwell.template, fun key b hb => ?_⟩, fun x hx => ?_,
    hdamper.moment_damped hall, hg.damp_again hsome hentries⟩
  · have hmem : (key, b) ∈ all.entries := Table.get?_eq_some_iff.1 hb
    rw [hall, List.mem_append] at hmem
    rcases hmem with hmem | hmem
    · exact hwell.groups key b (Table.get?_eq_some_iff.2 hmem)
    · exact hdamper.wellFormed.groups key b (Table.get?_eq_some_iff.2 hmem)
  · obtain ⟨n, hn, herror⟩ := hdamper.error_eq hx
    obtain ⟨d, hd, hnormal⟩ := hdamper.normal_damped hall hx
    exact ⟨n, d, hn, hd, error_appended hall herror, hnormal⟩

/-! ## A number and a point of the plane -/

/-- The key of the factors on a number and a point. -/
def coupledKey : Key Catalogue :=
  .group ⟨.jacobian, [.real 1, .real 2], [[.node .tuple 2, .leaf, .leaf], [.leaf]],
    [[], [], [1, 1], [1, 2], [1]]⟩

/-- Two equations, each on one of two numbers and the only point. -/
noncomputable def coupled : LinearGraph Catalogue ℝ where
  buffers := .ofList [(coupledKey, .of (.factors
    { kind := .jacobian
      handles := [⟨.real 1, .ints (.generate [2] fun i => i)⟩,
        ⟨.real 2, .ints (.generate [2] fun _ => 0)⟩]
      fields := [.node .tuple [.leaf (.full [2, 1, 1] 1), .leaf (.full [2, 1, 2] (-1))],
        .leaf (.full [2, 1] 1)] }) (.factors .jacobian))]
  template := ⟨.ofList [(.type (.real 1), .tangentZeros (.real 1) 2),
    (.type (.real 2), .tangentZeros (.real 2) 1)]⟩

theorem coupled_zeroTemplate : coupled.ZeroTemplate := by
  have hzeros : ∀ T n, (Buffer.tangentZeros T n : Buffer Catalogue ℝ).Holds (.type T)
      (.generate [n, T.tangentDim] fun _ => Scalar.zero) := fun T n => ⟨rfl, rfl⟩
  intro e he
  have he : e = (.type (.real 1), .tangentZeros (.real 1) 2) ∨
      e = (.type (.real 2), .tangentZeros (.real 2) 1) := by
    simpa using (show e ∈ [(Key.type (.real 1), Buffer.tangentZeros (.real 1) 2),
      (Key.type (.real 2), Buffer.tangentZeros (.real 2) 1)] from he)
  rcases he with rfl | rfl
  · exact ⟨.real 1, 2, _, rfl, by omega, hzeros _ _, rfl, fun k hk =>
      (Tensor.entry_generate hk).trans Scalar.zero_eq⟩
  · exact ⟨.real 2, 1, _, rfl, by omega, hzeros _ _, rfl, fun k hk =>
      (Tensor.entry_generate hk).trans Scalar.zero_eq⟩

theorem coupled_wellFormed : coupled.WellFormed where
  template key b hb := by
    obtain ⟨T, n, t, rfl, -, h⟩ := coupled_zeroTemplate (key, b) (Table.get?_eq_some_iff.1 hb)
    exact .inr ⟨T, n, t, rfl, h⟩
  groups key b hb := by
    obtain ⟨rfl, rfl⟩ := Prod.mk.inj (List.mem_singleton.1 (Table.get?_eq_some_iff.1 hb))
    have hkey : ∀ {T}, Key.type T ∈ coupled.template.buffers.keys.toFinset →
        Key.type T ∈ coupled.unknowns.keys := fun h => by
      rwa [coupled_zeroTemplate.keys_unknowns]
    refine ⟨_, 2, 1, rfl, by omega, ?_⟩
    show Factor.Linear _ 2 ⟨.jacobian, _, [.node _ (List.map .leaf [_, _]), .leaf _]⟩ 1
    refine .jacobian (by simp) ?_ rfl ?_
    · exact .cons rfl (.cons rfl .nil)
    · intro a ha
      rcases List.mem_cons.1 ha with rfl | ha
      · exact Handle.addresses_generate (hkey (by decide)) fun i hi => ⟨i, Access.locate_of_lt hi⟩
      · obtain rfl := List.mem_singleton.1 ha
        exact Handle.addresses_generate (hkey (by decide)) fun i _ => ⟨0, rfl⟩

/-- A point of the plane, and no numbers. -/
noncomputable def coupledPoint : Vectors Catalogue ℝ :=
  ⟨.ofList [(.type (.real 2), .ofVectors (.type (.real 2)) (.reals (.generate [1, 2] (· + 1))))]⟩

theorem coupledPoint_within : coupledPoint.Within coupled.unknowns := by
  have hkeys : coupled.unknowns.keys = {.type (.real 1), .type (.real 2)} :=
    coupled_zeroTemplate.keys_unknowns.trans (by decide)
  refine ⟨fun key hkey => ?_, fun key hkey => ?_⟩
  · rw [hkeys, Finset.mem_insert, Finset.mem_singleton] at hkey
    rcases hkey with rfl | rfl
    · exact .inl rfl
    · exact .inr ⟨_, ⟨rfl, rfl⟩, rfl⟩
  · have hout : key ∉ coupledPoint.buffers.keys := by
      show key ∉ [Key.type (.real 2)]
      rw [hkeys] at hkey
      simpa using fun h => hkey (by simp [h])
    exact congrArg Buffer.isEmpty (Buffers.buffer_of_not_mem hout)

theorem coupled_damped_once : ∃ g' n d e, damp 3 coupled = .ok () g' ∧
    coupledPoint.squaredNorm = .ok n ∧ coupledPoint.scaled (3 ^ 2) = .ok d ∧
    coupled.error coupledPoint.bulk = .ok e ∧ g'.error coupledPoint.bulk = .ok (e + 3 ^ 2 / 2 * n) ∧
    Checked.Alike (fun v v' => ∃ w, v.add d = .ok w ∧ v'.equal w = .ok true)
      (coupled.normal coupledPoint) (g'.normal coupledPoint) ∧
    Checked.Alike (fun v v' => v'.equal v = .ok true) coupled.moment g'.moment ∧
    ∀ t : ℝ, ∃ T : VariableType, damp t g' = .error (.broken (.undamped T.name)) g' := by
  have hdampable : coupled.Dampable := ⟨coupled_wellFormed, coupled_zeroTemplate, fun T _ hT => by
    have hsame : Key.group (dampingGroup T) = coupledKey := List.mem_singleton.1 hT
    cases hsame⟩
  obtain ⟨all, hdamped, -⟩ := hdampable.damped 3
  have hdamp := damped_eq_ok hdamped
  obtain ⟨-, -, -, hpoint, hmoment, hagain⟩ :=
    coupled_zeroTemplate.damp_once (List.cons_ne_nil _ _) hdamp
  obtain ⟨n, d, hn, hd, herror, hnormal⟩ := hpoint coupledPoint coupledPoint_within
  have he := coupled_wellFormed.error_eq coupledPoint_within.fits
  rw [he] at herror
  obtain ⟨e', he', rfl⟩ := herror.of_ok
  exact ⟨_, n, d, _, hdamp, hn, hd, he, he', hnormal, hmoment, hagain⟩

end LinearGraph

end LeastSquares
