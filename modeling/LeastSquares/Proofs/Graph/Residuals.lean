import LeastSquares.Proofs.Factor.Constant
import LeastSquares.Catalogue

/-!
# Residuals and gradients of linearised graphs

A graph is linearised into groups under the keys of its factors with residuals. At zero the linear graph
has the residuals of the graph where it was linearised, group by group. The gradient, which is found by
differentiating the errors, is the adjoint of the linear graph applied to them, under the keys of the zero
tangent vectors.
-/

namespace LeastSquares

/-! ## Keys of what is added up -/

section Keys

variable {C α : Type} [DecidableEq C] [Scalar α] {v w : Vectors C α}

theorem Vectors.keys_scatterAdd {a : Handle (Item α)} {b : Block α} (h : v.scatterAdd a b = .ok w) :
    w.buffers.keys = v.buffers.keys := by
  obtain ⟨_, hrequire, h⟩ := Checked.bind_eq_ok h
  obtain ⟨rows, -, h⟩ := Checked.bind_eq_ok h
  obtain ⟨places, -, h⟩ := Checked.bind_eq_ok h
  obtain ⟨sums, -, h⟩ := Checked.bind_eq_ok h
  cases h
  refine Table.keys_insert_of_mem ?_
  by_contra hmem
  rw [show (v.buffer (.type a.type)).isEmpty = true by
    rw [Vectors.buffer, Buffers.buffer_of_not_mem hmem]
    rfl] at hrequire
  cases hrequire

theorem Factor.keys_accumulate {contributions : List (List (Handle (Block α) × Block α))}
    (h : accumulate contributions v = .ok w) : w.buffers.keys = v.buffers.keys := by
  obtain ⟨sum, hsum, h⟩ := Checked.bind_eq_ok h
  cases h
  refine (Table.keys_map_eq ..).trans (Checked.foldlM_keeps (·.buffers.keys) (fun slot out next hnext => ?_) hsum)
  obtain ⟨index, -, hnext⟩ := Checked.bind_eq_ok hnext
  obtain ⟨vectors, -, hnext⟩ := Checked.bind_eq_ok hnext
  exact Vectors.keys_scatterAdd hnext

theorem Factor.keys_stackAdjoint [FactorFamily C] {F : FactorStack C α} {y : Block α}
    (h : F.stackAdjoint y v = .ok w) : w.buffers.keys = v.buffers.keys := by
  obtain ⟨rows, -, h⟩ := Checked.bind_eq_ok h
  by_cases hcount : y.shape.head? ≠ some rows.length
  · rw [if_pos hcount] at h
    cases h
  · rw [if_neg hcount] at h
    obtain ⟨contributions, -, h⟩ := Checked.bind_eq_ok h
    exact keys_accumulate h

/-- The adjoint has the keys of the template, in their order. -/
theorem LinearGraph.keys_adjoint [FactorFamily C] {g : LinearGraph C α} {y : Buffers C α}
    (h : g.adjoint y = .ok w) : w.buffers.keys = g.template.buffers.keys := by
  refine Checked.foldlM_keeps (·.buffers.keys) (fun e out next hnext => ?_) h
  cases hempty : (y.buffer e.1).isEmpty with
  | true =>
    simp only [hempty, if_true] at hnext
    cases hnext
    rfl
  | false =>
    simp only [hempty, Bool.false_eq_true, if_false] at hnext
    obtain ⟨F, -, hnext⟩ := Checked.bind_eq_ok hnext
    obtain ⟨t, -, hnext⟩ := Checked.bind_eq_ok hnext
    exact Factor.keys_stackAdjoint hnext

end Keys

namespace FactorGraph

variable {C α : Type} [DecidableEq C] [FactorFamily C] [LinearOrder α] [ExactScalar α]
  {graph : FactorGraph C α} {linear : LinearGraph C α} {s : Store C α}

/-- The groups that have residuals, in their order. -/
def residualKeys (graph : FactorGraph C α) : List (Key C) :=
  (graph.buffers.entries.filter fun e => e.2.hasResiduals).map Prod.fst

/-- The classes of the client in the graph keep their residuals. -/
def Honest (graph : FactorGraph C α) : Prop :=
  ∀ key b f n, graph.buffers.get? key = some b → b.factors = .ok f → f.rowCount = .ok n → f.Honest n

/-! ## Group by group -/

omit [DecidableEq C] [LinearOrder α] [ExactScalar α] in
/-- Images of just the groups that have residuals are under their keys. -/
theorem keys_images_residual {D : Type} {image : Key C → Buffer C α → Option D}
    {entries : List (Key C × Buffer C α)}
    (h : ∀ e ∈ entries, (image e.1 e.2).isSome = e.2.hasResiduals) :
    (Table.images image entries).map Prod.fst =
      (entries.filter fun e => e.2.hasResiduals).map Prod.fst := by
  induction entries with
  | nil => rfl
  | cons e entries ih =>
    have hrest := ih fun e' he' => h e' (by simp [he'])
    have hhead := h e (by simp)
    rw [Table.images] at hrest ⊢
    rw [List.filterMap_cons, List.filter_cons, ← hhead]
    cases image e.1 e.2 with
    | none => exact hrest
    | some w => exact congrArg (e.1 :: ·) hrest

/-- The residuals of a group where its graph was linearised, and those of its linear factors at zero. -/
theorem Proper.residuals_group (hα : ExactAngle α) (hs : s.WellFormed) (hg : graph.Proper s.layout)
    (hhonest : graph.Honest) {T : Layout C} {key : Key C} {b c : Buffer C α}
    (hb : graph.buffers.get? key = some b) (hresiduals : b.hasResiduals = true)
    (h : Linearizes s T b c) :
    ∃ f F n m B, b.factors = .ok f ∧ c.factors = .ok F ∧ F.Linear T n m ∧
      f.stackResiduals s.bulk = .ok B ∧ B.toReals.IsMatrix n m fun i j => -F.offset i j := by
  obtain ⟨f, F, n, m, hf, hF, hrows, hn, hlinear, happrox⟩ := h
  obtain ⟨f', hcontent, hstack, hproper⟩ := hg key b hb
  have hf' : b.factors = .ok f' := by rw [Buffer.factors, hcontent, hstack]
  obtain rfl := Except.ok.inj (hf.symm.trans hf')
  have hresidual : f.kind.hasResidual = true := by
    rwa [Buffer.hasResiduals, hcontent] at hresiduals
  obtain ⟨k, hk⟩ := hproper hresidual
  obtain rfl : k = n := by
    simpa using congrArg List.length (Except.ok.inj (hk.rows.symm.trans hrows))
  obtain ⟨B, hB, hmatrix⟩ := Factor.stackResiduals_of_reproduces hrows hn hlinear fun i hi => by
    obtain ⟨values, hvalues, hG, -⟩ := happrox i hi
    exact ⟨values, hvalues, hk.reproduces hα hs (hhonest key b f k hb hf hk.rowCount) hresidual hi
      hvalues hG⟩
  exact ⟨f, F, k, m, B, hf, hF, hlinear, hB, hmatrix⟩

/-- The residuals of a linear graph at zero, group by group. -/
theorem residuals_template_group (hlinear : linear.WellFormed) {y : Vectors C α}
    (hy : linear.residuals linear.template.bulk = .ok y) :
    y.buffers.keys = linear.buffers.keys ∧ ∀ key c F n m, linear.buffers.get? key = some c →
      c.factors = .ok F → F.Linear linear.unknowns n m → ∃ t : Tensor α,
        y.buffer key = .ofVectors key (.reals t) ∧ t.IsMatrix n m fun i j => -F.offset i j := by
  have hfits := hlinear.template_fills.within.fits
  have hstacks : ∀ key c, linear.buffers.get? key = some c → ∃ t : Tensor α,
      (c.factors >>= fun f => f.stackResiduals linear.template.bulk >>= fun b =>
        Except.ok (Buffer.ofVectors key b)) = .ok (.ofVectors key (.reals t)) := by
    intro key c hc
    obtain ⟨hfactors, hrows, hstack⟩ := hlinear.linear hc
    obtain ⟨t, ht, -⟩ := hstack.stackResiduals hrows hlinear.tangent hfits
    exact ⟨t, by rw [hfactors, Checked.ok_bind, ht, Checked.ok_bind]⟩
  obtain ⟨v, hv, hkeys, himages⟩ := Table.mapM_ok fun key c hc => (hstacks key c hc).imp' _ fun _ => id
  obtain ⟨v', hv', hy'⟩ := Checked.bind_eq_ok hy
  obtain rfl := Except.ok.inj (hv.symm.trans hv')
  obtain ⟨y', hy'', hfills, hcoordinate⟩ := residuals_template hlinear
  obtain rfl := Except.ok.inj (hy''.symm.trans hy)
  cases hy'
  refine ⟨hkeys, fun key c F n m hc hF hFlinear => ?_⟩
  obtain ⟨t, ht⟩ := hstacks key c hc
  obtain ⟨w, hw, himage⟩ := himages key c hc
  obtain rfl := Except.ok.inj (ht.symm.trans himage)
  obtain ⟨u, hu, hmatrix⟩ := holds_of_constants hlinear hc hF hFlinear hfills hcoordinate
  have hbuffer : Vectors.buffer ⟨v⟩ key = .ofVectors key (.reals t) := Buffers.buffer_of_get? hw
  rw [hbuffer] at hu
  obtain rfl : t = u := by
    injection hu.2 with hstack
    injection hstack with hvalue
    injection hvalue with hblock
    exact Block.reals.inj hblock
  exact ⟨t, hbuffer, hmatrix⟩

/-- The residuals of a group, if it has any. -/
def residualBuffer (s : Store C α) (key : Key C) (b : Buffer C α) : Checked (Option (Buffer C α)) := do
  if b.hasResiduals then
    return some (.ofVectors key (← (← b.factors).stackResiduals s.bulk))
  else return none

/-- What the residuals of a group are, where the vectors of its linear factors are known. -/
theorem Proper.residualBuffer_eq (hα : ExactAngle α) (hs : s.WellFormed) (hg : graph.Proper s.layout)
    (hhonest : graph.Honest) (hlinear : linear.WellFormed) {y : Vectors C α}
    (hy : linear.residuals linear.template.bulk = .ok y) {key : Key C} {b : Buffer C α}
    (hb : graph.buffers.get? key = some b) {o : Option (Buffer C α)}
    (h : BecomesLinear s linear.unknowns b o) (ho : linear.buffers.get? key = o) :
    ∃ o', residualBuffer s key b = .ok o' ∧ o'.isSome = b.hasResiduals ∧
      ∀ w, o' = some w → ∃ B, w = .ofVectors key B ∧ y.buffer key = .ofVectors key (.reals B.toReals) := by
  cases o with
  | none =>
    have hresiduals : b.hasResiduals = false := h
    exact ⟨none, by rw [residualBuffer, hresiduals]; rfl, hresiduals.symm, nofun⟩
  | some c =>
    obtain ⟨hresiduals, hlinearizes⟩ := h
    obtain ⟨f, F, n, m, B, hf, hF, hFlinear, hB, hmatrix⟩ :=
      hg.residuals_group hα hs hhonest hb hresiduals hlinearizes
    obtain ⟨t, ht, htmatrix⟩ := (residuals_template_group hlinear hy).2 key c F n m ho hF hFlinear
    refine ⟨some (.ofVectors key B), ?_, hresiduals.symm, ?_⟩
    · rw [residualBuffer, hresiduals, hf, Checked.ok_bind, hB]
      rfl
    · rintro w ⟨⟩
      refine ⟨B, rfl, ht.trans (congrArg (fun t => Buffer.ofVectors key (.reals t)) ?_)⟩
      refine Tensor.ext_entry (htmatrix.1.trans hmatrix.1.symm) fun k hk => ?_
      rw [htmatrix.1, Shape.volume_matrix] at hk
      rw [htmatrix.entry_eq hk, hmatrix.entry_eq hk]

/-- The residuals of a graph, and those of its linearisation at zero. -/
theorem Proper.residuals_zero (hα : ExactAngle α) (hs : s.WellFormed) (hg : graph.Proper s.layout)
    (hhonest : graph.Honest) (h : graph.linearize s = .ok linear) :
    linear.buffers.keys = graph.residualKeys ∧
    ∃ r y, graph.residuals s.bulk = .ok r ∧ linear.residuals linear.template.bulk = .ok y ∧
      r.buffers.keys = graph.residualKeys ∧ y.buffers.keys = graph.residualKeys ∧
      ∀ key ∈ graph.residualKeys, ∃ b, r.buffer key = .ofVectors key b ∧
        y.buffer key = .ofVectors key (.reals b.toReals) := by
  obtain ⟨-, image, hentries, himage⟩ := hg.linearize hs h
  have hlinear := hg.wellFormed hs h
  obtain ⟨y, hy, -⟩ := residuals_template hlinear
  -- a group has residuals just if it became linear
  have hsome : ∀ e ∈ graph.buffers.entries, (image e.1 e.2).isSome = e.2.hasResiduals := by
    intro e he
    have hbecomes := himage e he
    cases hc : image e.1 e.2 with
    | none => exact (hc ▸ hbecomes : BecomesLinear s _ e.2 none).symm
    | some c => exact (hc ▸ hbecomes : BecomesLinear s _ e.2 (some c)).1.symm
  have hkeys : linear.buffers.keys = graph.residualKeys := by
    rw [Table.keys, hentries]
    exact keys_images_residual hsome
  have hrule := fun e he => hg.residualBuffer_eq hα hs hhonest hlinear hy
    (Table.get?_eq_some_iff.2 he) (himage e he) (Table.get?_images hentries he)
  obtain ⟨r, hr⟩ := Table.exists_filterMapM (f := residualBuffer s) fun e he =>
    (hrule e he).imp fun _ => And.left
  obtain ⟨image', himage', hrentries⟩ := Table.exists_images hr
  have himages : ∀ e ∈ graph.buffers.entries, (image' e.1 e.2).isSome = e.2.hasResiduals ∧
      ∀ w, image' e.1 e.2 = some w → ∃ b, w = .ofVectors e.1 b ∧
        y.buffer e.1 = .ofVectors e.1 (.reals b.toReals) := by
    intro e he
    obtain ⟨o, ho, hspec⟩ := hrule e he
    obtain rfl := Except.ok.inj (ho.symm.trans (himage' e he))
    exact hspec
  have hrkeys : r.keys = graph.residualKeys := by
    rw [Table.keys, hrentries]
    exact keys_images_residual fun e he => (himages e he).1
  refine ⟨hkeys, ⟨r⟩, y, congrArg (· >>= fun buffers => Except.ok (⟨buffers⟩ : Vectors C α)) hr, hy,
    hrkeys, (residuals_template_group hlinear hy).1.trans hkeys, fun key hkey => ?_⟩
  rw [← hrkeys] at hkey
  obtain ⟨w, hw⟩ := Table.mem_keys_iff.1 hkey
  have hmem := Table.get?_eq_some_iff.1 hw
  rw [hrentries] at hmem
  obtain ⟨b, hb, himage⟩ := Table.mem_of_mem_images hmem
  obtain ⟨B, hB, hyB⟩ := (himages _ hb).2 w himage
  exact ⟨B, (Buffers.buffer_of_get? hw).trans hB, hyB⟩

def turnKey : Key Catalogue :=
  .group ⟨.switchingBetween, [.lie .so2, .discrete, .lie .so2],
    [[.node (.group .so2) 1, .leaf], [.node .diagonalNoise 1, .leaf]], [[], [], [], [2, 2], [1]]⟩

def weightKey : Key Catalogue := .group ⟨.client .absolute, [.real 1], [[.leaf]], [[], []]⟩

def stayKey : Key Catalogue :=
  .group ⟨.between, [.lie .so2, .lie .so2],
    [[.node (.group .so2) 1, .leaf], [.node .diagonalNoise 1, .leaf]], [[], [], [2], [1]]⟩

def pullKey : Key Catalogue :=
  .group ⟨.jacobian, [.real 1, .real 1], [[.node .tuple 2, .leaf, .leaf], [.leaf]],
    [[], [], [1, 1], [1, 1], [1]]⟩

def turn : FactorStack Catalogue ℚ :=
  ⟨.switchingBetween, [⟨.lie .so2, .ints (.generate [1] fun _ => 0)⟩,
      ⟨.discrete, .ints (.generate [1] fun _ => 0)⟩, ⟨.lie .so2, .ints (.generate [1] fun _ => -1)⟩],
    [.node (.group .so2) [.leaf (.reals (.generate [1, 2, 2] fun k => if k % 3 = 0 then 1 else 0))],
      .node .diagonalNoise [.leaf (.full [1, 1] 2)]]⟩

def weight : FactorStack Catalogue ℚ :=
  ⟨.client .absolute, [⟨.real 1, .ints (.generate [1] fun _ => 0)⟩], [.leaf (.full [1] 2)]⟩

def stay : FactorStack Catalogue ℚ :=
  ⟨.between, [⟨.lie .so2, .ints (.generate [1] fun _ => 1)⟩,
      ⟨.lie .so2, .ints (.generate [1] fun _ => 1)⟩],
    [.node (.group .so2) [.leaf (.reals (.generate [1, 2] fun k => 1 - k))],
      .node .diagonalNoise [.leaf (.full [1, 1] 3)]]⟩

def pull : FactorStack Catalogue ℚ :=
  ⟨.jacobian, [⟨.real 1, .ints (.generate [1] fun _ => 0)⟩,
      ⟨.real 1, .ints (.generate [1] fun _ => 0)⟩],
    [.node .tuple [.leaf (.full [1, 1, 1] 2), .leaf (.full [1, 1, 1] (-5))], .leaf (.full [1, 1] 7)]⟩

/-- Two headings and a number. A label chooses the turn from one heading to the other; a heading should
stay as it is; the number is pulled twice, and weighed by an error without a residual. -/
def steered : FactorGraph Catalogue ℚ where
  buffers := ⟨[(turnKey, .of (.factors turn) (.factors .switchingBetween)),
    (weightKey, .of (.factors weight) (.factors (.client .absolute))),
    (stayKey, .of (.factors stay) (.factors .between)),
    (pullKey, .of (.factors pull) (.factors .jacobian))], by decide⟩

def steeredStart : Store Catalogue ℚ :=
  ⟨.ofList [
    (.type (.lie .so2), .of (.values (.node (.group .so2)
      [.leaf (.reals (.generate [2, 2] fun k => if k % 3 = 0 then 1 else 0))])) (.values (.lie .so2))),
    (.type .discrete, .of (.values (.leaf (.ints (.generate [1] fun _ => 1)))) (.values .discrete)),
    (.type (.real 1), .of (.values (.leaf (.full [1, 1] 3))) (.values (.real 1)))]⟩

theorem steeredStart_wellFormed : steeredStart.WellFormed := by
  refine Table.forall_get? ?_
  rw [show steeredStart.buffers.entries = [_, _, _] from rfl, List.forall_mem_cons,
    List.forall_mem_cons, List.forall_mem_singleton]
  exact ⟨⟨.lie .so2, _, 2, rfl, rfl, rfl, rfl, by omega, fun _ => rfl⟩,
    ⟨.discrete, _, 1, rfl, rfl, rfl, rfl, by omega, nofun⟩,
    ⟨.real 1, _, 1, rfl, rfl, rfl, rfl, by omega, fun _ => rfl⟩⟩

theorem steered_addresses {T : VariableType} {index : Int}
    (hT : Key.type T ∈ steeredStart.layout.keys)
    (h : ∃ place, target (steeredStart.layout.rows (.type T)) index = some place) :
    Handle.Addresses (α := ℚ) ⟨T, .ints (.generate [1] fun _ => index)⟩ steeredStart.layout 1 :=
  Handle.addresses_generate hT fun _ _ => h

theorem steered_proper : steered.Proper steeredStart.layout := by
  have hheading : Key.type (.lie .so2) ∈ steeredStart.layout.keys := by decide +kernel
  have hlabel : Key.type .discrete ∈ steeredStart.layout.keys := by decide +kernel
  have hnumber : Key.type (.real 1) ∈ steeredStart.layout.keys := by decide +kernel
  have hnumbers : ∀ a ∈ pull.handles, a.Addresses steeredStart.layout 1 := by
    rw [show pull.handles = [_, _] from rfl, List.forall_mem_cons, List.forall_mem_singleton]
    exact ⟨steered_addresses hnumber ⟨0, rfl⟩, steered_addresses hnumber ⟨0, rfl⟩⟩
  refine Table.forall_get? ?_
  rw [show steered.buffers.entries = [_, _, _, _] from rfl, List.forall_mem_cons,
    List.forall_mem_cons, List.forall_mem_cons, List.forall_mem_singleton]
  refine ⟨⟨turn, rfl, rfl, fun _ => ⟨1, rfl, by simp [turn], ?_, Factor.rowwise_of_inherited rfl,
      .lie .so2, rfl, rfl⟩⟩, ⟨weight, rfl, rfl, nofun⟩,
    ⟨stay, rfl, rfl, fun _ => ⟨1, rfl, by simp [stay], ?_, Factor.rowwise_of_inherited rfl, trivial⟩⟩,
    ⟨pull, rfl, rfl, fun _ => ⟨1, rfl, by simp [pull], hnumbers, Factor.rowwise_of_inherited rfl, ?_, 1, ?_⟩⟩⟩
  · rw [show turn.handles = [_, _, _] from rfl, List.forall_mem_cons, List.forall_mem_cons,
      List.forall_mem_singleton]
    exact ⟨steered_addresses hheading ⟨0, rfl⟩, steered_addresses hlabel ⟨0, rfl⟩,
      steered_addresses hheading ⟨1, rfl⟩⟩
  · rw [show stay.handles = [_, _] from rfl, List.forall_mem_cons, List.forall_mem_singleton]
    exact ⟨steered_addresses hheading ⟨1, rfl⟩, steered_addresses hheading ⟨1, rfl⟩⟩
  · intro t ht
    obtain rfl : t = .real 1 := by simpa [Factor.types, pull] using ht
    exact VariableType.isVector_real 1
  · show Factor.Linear _ 1 ⟨.jacobian, _, [.node _ (List.map .leaf [_, _]), .leaf _]⟩ 1
    exact .jacobian (by simp) (.cons rfl (.cons rfl .nil)) rfl hnumbers

theorem steered_honest : steered.Honest := by
  intro key b f n hb
  refine Table.forall_get? (P := fun _ b => b.factors = .ok f → f.rowCount = .ok n → f.Honest n) ?_
    key b hb
  rw [show steered.buffers.entries = [_, _, _, _] from rfl, List.forall_mem_cons,
    List.forall_mem_cons, List.forall_mem_cons, List.forall_mem_singleton]
  refine ⟨?_, ?_, ?_, ?_⟩
  · rintro ⟨⟩ - c ⟨⟩
  · rintro ⟨⟩ - c ⟨⟩ ⟨⟩
  · rintro ⟨⟩ - c ⟨⟩
  · rintro ⟨⟩ - c ⟨⟩

end FactorGraph

end LeastSquares
