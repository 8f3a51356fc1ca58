import LeastSquares.Proofs.Factor.Rearranged
import LeastSquares.Proofs.Graph.Buckets
import LeastSquares.Proofs.Graph.Damped
import LeastSquares.Proofs.Graph.Shuffle
import LeastSquares.Proofs.Graph.Switching

/-!
# Linear graphs in another order

A graph in another order becomes a linear graph with the same linear factors in another order, if each
handle names one variable. So both have the same normal equations. In all, a graph is a list of factors:
nothing but the order in its buckets tells in which order they came.
-/

namespace LeastSquares

open Checked (amount Matches)

/-! ## Stacks -/

namespace Factor

section Stacks

variable {C α : Type} [DecidableEq C] [FactorFamily C] [LinearOrder α] [ExactScalar α] {s : Store C α}
  {fs fs' : List (FactorLiteral C α)} {rows rows' : List (FactorStack C α)} {F F' : FactorStack C α}

/-- A factor becomes a linear factor of some of its variables. -/
theorem linearized_spec {f l : FactorStack C α} {values : List (Found α)} (hbatched : f.kind.Batched α)
    (h : f.linearized values = .ok l) :
    l.kind = .jacobian ∧ l.leaves ≠ [] ∧ ∀ a ∈ l.handles, a ∈ f.handles := by
  have hleaves : ∀ (handles : List (Handle (Block α))) (jacobians : Value α) (error : Block α),
      (⟨.jacobian, handles, [jacobians, .leaf error]⟩ : FactorStack C α).leaves ≠ [] := by
    intro handles jacobians error
    simp [leaves, Tree.leaves]
  unfold linearized at h
  split at h
  next => cases h
  next =>
    obtain ⟨residual, -, h⟩ := Checked.bind_eq_ok h
    split at h
    next m _ =>
      obtain ⟨jacobians, -, h⟩ := Checked.bind_eq_ok h
      obtain ⟨error, -, h⟩ := Checked.bind_eq_ok h
      cases h
      exact ⟨rfl, hleaves _ _ _, fun a ha => ha⟩
    next => cases h
  next =>
    obtain ⟨⟨part, ws⟩, hpart, h⟩ := Checked.bind_eq_ok h
    obtain ⟨moving, -, h⟩ := Checked.bind_eq_ok h
    obtain ⟨residual, -, h⟩ := Checked.bind_eq_ok h
    split at h
    next m _ =>
      cases h
      exact ⟨rfl, hleaves _ _ _, (hbatched.component rfl rfl hpart hpart).2⟩
    next => cases h

omit [FactorFamily C] in
/-- Linear factors of single variables become stacks in another order, in whichever order they are stacked. -/
theorem matches_stack? {ls ls' : List (FactorStack C α)} (hperm : ls.Perm ls')
    (hlinear : ∀ l ∈ ls, l.kind = .jacobian ∧ l.leaves ≠ [] ∧ l.Single) :
    Matches Shuffled (fitting (stack? ls)) (fitting (stack? ls')) := by
  refine Checked.matches_of_iff ⟨fun ⟨G, hG⟩ => ?_, fun ⟨G, hG⟩ => ?_⟩ fun G G' hG hG' => ?_
  · obtain ⟨G', hG'⟩ := exists_stack?_perm hperm (fitting_eq_ok hG)
    exact ⟨G', congrArg fitting hG'⟩
  · obtain ⟨G', hG'⟩ := exists_stack?_perm hperm.symm (fitting_eq_ok hG)
    exact ⟨G', congrArg fitting hG'⟩
  · have hG := fitting_eq_ok hG
    have hG' := fitting_eq_ok hG'
    refine ⟨_, _, rows_stack? hG (leaves_stack? hG fun l hl => (hlinear l hl).2.1),
      rows_stack? hG' (leaves_stack? hG' fun l hl => (hlinear l (hperm.mem_iff.2 hl)).2.1),
      perm_rows hperm hG hG', fun g hg => ?_⟩
    obtain ⟨i, hi, rfl⟩ := List.mem_map.1 hg
    have hi : i < ls.length := List.mem_range.1 hi
    have hkind : G.kind = (ls[i]).kind := congrArg (·.1) ((stack?_spec hG).2.1 _ (List.getElem_mem hi)).symm
    exact ⟨hkind.trans (hlinear _ (List.getElem_mem hi)).1, single_of_stack? hG (fun l hl => (hlinear l hl).2.2) hi⟩

namespace Stacked

section Rows

variable (h : Stacked s fs rows F)
include h

/-- What a rule makes of a stack, it makes of one of its rows. -/
theorem exists_row {β : Type} {read : Reader α} {rule : FactorStack C α → List (Found α) → Checked β}
    {rs : List β} (hrs : F.overRows read rule = .ok rs) {r : β} (hr : r ∈ rs) :
    ∃ i values, i < fs.length ∧ rule (F.row i) values = .ok r := by
  unfold overRows at hrs
  rw [h.rows_eq, Checked.ok_bind] at hrs
  obtain ⟨k, hk, rfl⟩ := List.getElem_of_mem hr
  have hspec := Checked.forall₂_of_mapM hrs
  have hk' : k < ((List.range fs.length).map F.row).length := hspec.length_eq.symm ▸ hk
  obtain ⟨values, -, hvalues⟩ := Checked.bind_eq_ok (hspec.get hk' hk)
  obtain ⟨i, hi, hrow⟩ := List.mem_map.1 (List.getElem_mem hk')
  rw [List.get_eq_getElem, ← hrow] at hvalues
  exact ⟨i, values, List.mem_range.1 hi, hvalues⟩

end Rows

section Orders

variable (h : Stacked s fs rows F) (h' : Stacked s fs' rows' F') (hperm : fs.Perm fs')
include h h' hperm

theorem kind_eq : F'.kind = F.kind := by
  have hpos : 0 < rows.length := List.length_pos_of_ne_nil (stack?_spec h.stack).1
  obtain ⟨i, hi, hrow⟩ := List.getElem_of_mem ((h.perm_stored h' hperm).mem_iff.1 (List.getElem_mem hpos))
  rw [← h.kind_row hpos, ← hrow, h'.kind_row hi]

/-- What a rule makes of each factor, it makes of it in another order. -/
theorem matches_overRows {β : Type} (read : Reader α) (rule : FactorStack C α → List (Found α) → Checked β) :
    Matches List.Perm (F.overRows read rule) (F'.overRows read rule) :=
  (h.matches_rows h' hperm).bind fun _ _ _ _ hrows => Checked.matches_perm hrows

/-- Stacks in another order become linear stacks in another order. -/
theorem matches_stackLinearized (hsingle : ∀ f ∈ fs, ∀ a ∈ f.handles, a.Single) :
    Matches Shuffled (F.stackLinearized s.bulk) (F'.stackLinearized s.bulk) := by
  have hkind := h.kind_eq h' hperm
  unfold stackLinearized
  rw [hkind]
  cases hrule : stackRule? (C := C) F.kind with
  | some own =>
    obtain ⟨one, hlinear, hbatch⟩ := h.batched.rule hrule
    have hsingle' : ∀ f ∈ fs', ∀ a ∈ f.handles, a.Single := fun f hf => hsingle f (hperm.mem_iff.2 hf)
    have hown := (hbatch s rows F rfl (h.single_stored hsingle) h.stack).mono
      (S := fun G ls => G.rows = .ok ls ∧ F.overRows s.bulk one = .ok ls) fun _ _ _ hls hrows => ⟨hrows, hls⟩
    have hown' := hbatch s rows' F' hkind (h'.single_stored hsingle') h'.stack
    refine (hown.trans ((h.matches_overRows h' hperm s.bulk one).trans hown'.symm)).mono ?_
    rintro G G' - - ⟨ls, ⟨hrows, hls⟩, ls', hresults, hrows'⟩
    refine ⟨ls, ls', hrows, hrows', hresults, fun l hl => ?_⟩
    obtain ⟨i, values, hi, hl⟩ := h.exists_row hls hl
    obtain ⟨hjacobian, hhandles⟩ := hlinear _ values l hl
    exact ⟨hjacobian, fun a ha => h.single_row hsingle hi a (hhandles a ha)⟩
  | none =>
    refine (h.matches_overRows h' hperm s.bulk linearized).bind fun ls ls' hls _ hresults =>
      matches_stack? hresults fun l hl => ?_
    obtain ⟨i, values, hi, hl⟩ := h.exists_row hls hl
    obtain ⟨hjacobian, hleaves, hhandles⟩ := linearized_spec (show (F.row i).kind.Batched α from h.batched) hl
    exact ⟨hjacobian, hleaves, fun a ha => h.single_row hsingle hi a (hhandles a ha)⟩

end Orders

end Stacked

end Stacks

end Factor

/-! ## Linear graphs -/

namespace LinearGraph

variable {C α : Type} [DecidableEq C] [FactorFamily C] [LinearOrder α] [ExactScalar α] {L : Layout C}
  {A B : LinearGraph C α} {y y' : Vectors C α}

/-- The buffers have the same linear factors of single variables, in the order of each. -/
def Reordered (b b' : Buffer C α) : Prop :=
  ∃ G G', b.factors = .ok G ∧ b'.factors = .ok G' ∧ Factor.Shuffled G G'

/-- Linear graphs with one template and the same linear factors in each group, in the order of each. -/
structure Rearranged (A B : LinearGraph C α) : Prop where
  template : A.template = B.template
  groups : Table.Tied (fun _ => Reordered) A.buffers B.buffers

/-- The buffer keeps vectors of a group. -/
def Keeps (key : Key C) (Y : Block α) (c : Buffer C α) : Prop :=
  c.content = some (.vectors key) ∧ c.stack = some (.values (.ofBlock Y))

/-- The buffers keep the same rows beside the linear factors that two graphs have under a key. -/
def PairedAt (A B : LinearGraph C α) (key : Key C) (c c' : Buffer C α) : Prop :=
  ∃ Y Y', Keeps key Y c ∧ Keeps key Y' c' ∧ ∀ b b' G G', A.buffers.get? key = some b →
    B.buffers.get? key = some b' → b.factors = .ok G → b'.factors = .ok G' → Factor.Paired G G' Y Y'

/-- Vectors with the same rows beside the linear factors of two graphs. -/
structure Corresponding (A B : LinearGraph C α) (y y' : Vectors C α) : Prop where
  keys : y.buffers.keys = A.buffers.keys
  keys' : y'.buffers.keys = B.buffers.keys
  rows : Table.Tied (PairedAt A B) y.buffers y'.buffers

omit [FactorFamily C] in
/-- What a rule maps to corresponding rows in each group, it maps to corresponding vectors. -/
theorem Rearranged.matches_overGroups (h : A.Rearranged B) {rule : FactorStack C α → Checked (Block α)}
    (hrule : ∀ {G G'}, Factor.Shuffled G G' → Matches (Factor.Paired G G') (rule G) (rule G')) :
    Matches (Corresponding A B) (A.overGroups rule) (B.overGroups rule) := by
  refine (h.groups.matches_mapM (S := PairedAt A B) fun key b b' hb hb' => ?_).bind fun u u' hu hu' hrows => ?_
  · obtain ⟨G, G', hG, hG', hshuffled⟩ := h.groups.get key b b' hb hb'
    rw [hG, hG', Checked.ok_bind, Checked.ok_bind]
    refine (hrule hshuffled).bind fun Y Y' _ _ hpaired => ⟨Y, Y', ⟨rfl, rfl⟩, ⟨rfl, rfl⟩, ?_⟩
    intro c c' H H' hc hc' hH hH'
    obtain rfl := Option.some.inj (hb.symm.trans hc)
    obtain rfl := Option.some.inj (hb'.symm.trans hc')
    obtain rfl := Except.ok.inj (hG.symm.trans hH)
    obtain rfl := Except.ok.inj (hG'.symm.trans hH')
    exact hpaired
  · exact ⟨Table.keys_mapM hu, Table.keys_mapM hu', hrows⟩

/-- Corresponding vectors stay so when both are negated. -/
theorem Corresponding.matches_neg (h : Corresponding A B y y') : Matches (Corresponding A B) y.neg y'.neg := by
  have hscaled : ∀ {key : Key C} {Y : Block α} {c : Buffer C α}, Keeps key Y c → ∃ c', c.scaled (-Scalar.one) = .ok c' ∧
      Keeps key (Y.scaled (-Scalar.one)) c' := by
    intro key Y c ⟨hcontent, hstack⟩
    refine ⟨c.holding (.values (.ofBlock (Y.scaled (-Scalar.one)))) .device, ?_, hcontent, rfl⟩
    unfold Buffer.scaled Buffer.checkVectors
    rw [hstack, hcontent]
    rfl
  refine (h.rows.matches_mapM (S := PairedAt A B) fun key c c' hc hc' => ?_).bind fun u u' hu hu' hrows => ?_
  · obtain ⟨Y, Y', hY, hY', hpaired⟩ := h.rows.get key c c' hc hc'
    obtain ⟨d, hd, hkeeps⟩ := hscaled hY
    obtain ⟨d', hd', hkeeps'⟩ := hscaled hY'
    rw [hd, hd']
    exact ⟨_, _, hkeeps, hkeeps', fun b b' G G' hb hb' hG hG' => (hpaired b b' G G' hb hb' hG hG').scaled _⟩
  · exact ⟨(Table.keys_mapM hu).trans h.keys, (Table.keys_mapM hu').trans h.keys', hrows⟩

/-- The transposes map corresponding vectors back to equal ones. -/
theorem Rearranged.matches_adjoint (h : A.Rearranged B) (hfills : A.template.Fills L) (hy : Corresponding A B y y') :
    Matches (fun v w => v.equal w = .ok true) (A.adjoint y.buffers) (B.adjoint y'.buffers) := by
  have hagree : Vectors.Agree L (fun out => A.buffers.entries.foldlM (adjointStep y.buffers) out)
      fun out => B.buffers.entries.foldlM (adjointStep y'.buffers) out := by
    refine Vectors.agree_tables h.groups.keys fun key b b' hb hb' => ?_
    obtain ⟨G, G', hG, hG', hshuffled⟩ := h.groups.get key b b' hb hb'
    obtain ⟨c, hc⟩ := Table.mem_keys_iff.1 (hy.keys ▸ Table.mem_keys_iff.2 ⟨b, hb⟩ : key ∈ y.buffers.keys)
    obtain ⟨c', hc'⟩ := Table.mem_keys_iff.1 (hy.keys' ▸ Table.mem_keys_iff.2 ⟨b', hb'⟩ : key ∈ y'.buffers.keys)
    obtain ⟨Y, Y', hY, hY', hpaired⟩ := hy.rows.get key c c' hc hc'
    have hstep : ∀ {y : Vectors C α} {b c : Buffer C α} {G : FactorStack C α} {Y : Block α},
        y.buffers.get? key = some c → Keeps key Y c → b.factors = .ok G → ∀ v,
        adjointStep y.buffers v (key, b) = G.stackAdjoint Y v := by
      intro y b c G Y hc hY hG v
      rw [adjointStep, Buffers.buffer_of_get? hc, Buffer.isEmpty, Buffer.rows, hY.2, hG]
      rfl
    exact (hpaired b b' G G' hb hb' hG hG').agree_stackAdjoint hshuffled |>.congr (hstep hc hY hG) (hstep hc' hY' hG')
  have hmatches := hagree.matches_equal hfills
  show Matches _ (A.buffers.entries.foldlM (adjointStep y.buffers) A.template)
    (B.buffers.entries.foldlM (adjointStep y'.buffers) B.template)
  rwa [← h.template]

/-- The linear graphs have the same normal equations: `Aᵀ A x` is equal at each `x`, and so is `Aᵀ b`. -/
structure SameNormal (A B : LinearGraph C α) : Prop where
  normal : ∀ x, Matches (fun v w => v.equal w = .ok true) (A.normal x) (B.normal x)
  moment : Matches (fun v w => v.equal w = .ok true) A.moment B.moment

theorem Rearranged.sameNormal (h : A.Rearranged B) (hfills : A.template.Fills L) : A.SameNormal B where
  normal x := (h.matches_overGroups fun hG => hG.matches_stackForward x.bulk).bind fun _ _ _ _ hy =>
    h.matches_adjoint hfills hy
  moment := by
    unfold moment
    rw [← h.template]
    exact (h.matches_overGroups fun hG => hG.matches_stackResiduals A.template.bulk).bind fun _ _ _ _ hy =>
      hy.matches_neg.bind fun _ _ _ _ hr => h.matches_adjoint hfills hr

end LinearGraph

/-! ## Graphs -/

namespace FactorGraph

variable {C α : Type} [DecidableEq C] [FactorFamily C] [LinearOrder α] [ExactScalar α] {s : Store C α}
  {fs fs' : List (FactorLiteral C α)} {graph graph' : FactorGraph C α}

/-- A graph in another order becomes a linear graph in another order, if each handle names one variable. -/
theorem Holds.matches_linearize (h : Holds fs graph) (h' : Holds fs' graph') (hperm : fs.Perm fs')
    (halone : Alone s fs) (hsingle : ∀ f ∈ fs, ∀ a ∈ f.handles, a.Single) :
    Matches LinearGraph.Rearranged (graph.linearize s) (graph'.linearize s) := by
  have hkeys : Table.Tied (fun _ _ _ => True) graph.buffers graph'.buffers :=
    ⟨h.mem_keys_perm h' hperm, fun _ _ _ _ _ => trivial⟩
  have hgroups := hkeys.matches_filterMapM (f := fun _ b => linearStep s.bulk b) (g := fun _ b => linearStep s.bulk b)
    (S := fun _ => LinearGraph.Reordered) fun key b b' hb hb' => by
      obtain ⟨k, rows, F, rows', F', rfl, hF, hF', -, hresiduals, hstacked, hstacked'⟩ :=
        h.stacked_perm h' hperm halone hb hb'
      have hmembers : ∀ f ∈ members k fs, ∀ a ∈ f.handles, a.Single := fun f hf =>
        hsingle f (List.mem_filter.1 hf).1
      simp only [linearStep, hresiduals, hF, hF', Checked.ok_bind]
      split
      · exact (hstacked.matches_stackLinearized hstacked' (members_perm hperm k) hmembers).bind
          fun G G' _ _ hG => .some ⟨G, G', rfl, rfl, hG⟩
      · exact .none
  refine hgroups.bind fun buffers buffers' _ _ hbuffers => ?_
  cases s.tangentZeros with
  | error e => trivial
  | ok zeros => exact ⟨rfl, hbuffers⟩

theorem Holds.sameNormal_perm (h : Holds fs graph) (h' : Holds fs' graph') (hperm : fs.Perm fs')
    (halone : Alone s fs) (hs : s.Typed) (hsingle : ∀ f ∈ fs, ∀ a ∈ f.handles, a.Single) :
    Matches LinearGraph.SameNormal (graph.linearize s) (graph'.linearize s) :=
  (h.matches_linearize h' hperm halone hsingle).mono fun _ _ hA _ hAB =>
    hAB.sameNormal (hs.fills_tangentZeros (linearise_eq_ok hA).2)

/-- A graph in another order has the same errors. -/
theorem Holds.errors_perm (h : Holds fs graph) (h' : Holds fs' graph') (hperm : fs.Perm fs') (halone : Alone s fs)
    (whole : ∀ i, Scalar.wrap α i = i) :
    graph'.error s.bulk = graph.error s.bulk ∧ graph'.residualError s.bulk = graph.residualError s.bulk := by
  obtain ⟨xs, -, hx⟩ := h.error_eq halone whole
  obtain ⟨ys, -, hy⟩ := h.residualError_eq halone whole
  have hsum := h.amount_error_eq halone whole
  have hsum' := h.amount_residualError_eq halone whole
  rw [(hperm.map _).sum_eq, ← h'.amount_error_eq (halone.perm hperm) whole, hx] at hsum
  rw [((hperm.filter _).map _).sum_eq, ← h'.amount_residualError_eq (halone.perm hperm) whole, hy] at hsum'
  exact ⟨(Checked.amount_eq_coe.1 hsum.symm).trans hx.symm, (Checked.amount_eq_coe.1 hsum'.symm).trans hy.symm⟩

/-- A graph is as the list of the factors that are stored in it, if each of them has an error by itself. It has
a bucket for each group of factors, with these in the order in which they came, and nothing else. It counts
them, its error is the sum of theirs, and so is the error of those that have residuals, which is half of the squared
norm of all residuals. The factors can be stored in any other order. Then these errors are the same; if each handle
names one variable, so are the gradient, and `Aᵀ A x` and `Aᵀ b` of the linear graph. -/
theorem sums_of_list (whole : ∀ i, Scalar.wrap α i = i) (halone : Alone s fs) (hgraph : ofFactors fs = .ok graph) :
    (∀ key b, graph.buffers.get? key = some b → ∃ k F, key = .group k ∧ members k fs ≠ [] ∧
        Piled k (members k fs) b F) ∧
      (∀ f ∈ fs, Key.group (GroupKey.ofItems f) ∈ graph.buffers.keys) ∧
      graph.factorCount = .ok fs.length ∧
      (∃ xs, fs.mapM (Factor.errorAt s) = .ok xs ∧ graph.error s.bulk = .ok xs.sum) ∧
      (∃ xs, (fs.filter (·.kind.hasResidual)).mapM (Factor.errorAt s) = .ok xs ∧
        graph.residualError s.bulk = .ok xs.sum) ∧
      (∃ r n, graph.residuals s.bulk = .ok r ∧ r.squaredNorm = .ok n ∧
        graph.residualError s.bulk = .ok (Scalar.half * n)) ∧
      ∀ fs', fs.Perm fs' → ∃ graph', ofFactors fs' = .ok graph' ∧
        graph'.error s.bulk = graph.error s.bulk ∧ graph'.residualError s.bulk = graph.residualError s.bulk ∧
        (s.Typed → (∀ f ∈ fs, ∀ a ∈ f.handles, a.Single) →
          Matches (fun v w => v.equal w = .ok true) (graph.gradient s) (graph'.gradient s) ∧
          Matches LinearGraph.SameNormal (graph.linearize s) (graph'.linearize s)) := by
  have h := holds_of_ofFactors hgraph
  refine ⟨fun key b hb => ?_, fun f hf => h.mem_keys_iff.2 (List.ne_nil_of_mem (mem_members hf)),
    h.factorCount_eq halone, h.error_eq halone whole, h.residualError_eq halone whole, h.residuals_norm halone whole,
    fun fs' hperm => ?_⟩
  · obtain ⟨k, rfl, hbucket⟩ := h.bucket_of_get? hb
    obtain ⟨F, hF⟩ := hbucket.piled fun f => key_of_mem_members
    exact ⟨k, F, rfl, h.mem_keys_iff.1 (Table.mem_keys_iff.2 ⟨b, hb⟩), hF⟩
  · have hstored : ∀ f ∈ fs', ∃ g, f.stored? = some g := fun f hf => h.stored (hperm.mem_iff.2 hf)
    obtain ⟨graph', hgraph'⟩ := exists_ofFactors hstored
    have h' := holds_of_ofFactors hgraph'
    obtain ⟨herror, hresidual⟩ := h.errors_perm h' hperm halone whole
    exact ⟨graph', hgraph', herror, hresidual, fun hs hsingle => ⟨h.gradient_perm h' hperm halone hs hsingle,
      h.sameNormal_perm h' hperm halone hs hsingle⟩⟩

/-! ## Graphs over the rationals -/

theorem alone_of_mapM {xs : List α} (herrors : fs.mapM (Factor.errorAt s) = .ok xs)
    (hbatched : ∀ f ∈ fs, f.kind.Batched α) : Alone s fs where
  evaluates f hf := by
    obtain ⟨i, hi, rfl⟩ := List.getElem_of_mem hf
    have hspec := Checked.forall₂_of_mapM herrors
    exact ⟨_, hspec.get hi (hspec.length_eq ▸ hi)⟩
  batched := hbatched

/-- Two springs, of one group, and a linear factor between the numbers that they pull at zero. -/
def pulls : List (FactorLiteral Catalogue ℚ) :=
  [⟨.scalarJacobian, [⟨.real 1, .int 0⟩], [.leaf (.real (1 / 2))]⟩,
    ⟨.jacobian, [⟨.real 1, .int 0⟩, ⟨.real 1, .int 1⟩],
      [.node .tuple [.leaf (.array .device (.reals ⟨[1, 1], #[1], rfl⟩)),
        .leaf (.array .device (.reals ⟨[1, 1], #[-1], rfl⟩))], .leaf (.array .device (.full [1] 1))]⟩,
    ⟨.scalarJacobian, [⟨.real 1, .int 1⟩], [.leaf (.int 3)]⟩]

def pulledStore : Store Catalogue ℚ where
  buffers := .ofList [(.type (.real 1), .of (.values (.leaf (.reals ⟨[2, 1], #[4, 1], rfl⟩))) (.values (.real 1)))]

theorem errors_pulls : pulls.mapM (Factor.errorAt pulledStore) = .ok [2, 2, 9 / 2] := by decide +kernel

theorem alone_pulls : Alone pulledStore pulls := by
  refine alone_of_mapM errors_pulls ?_
  have hlibrary : ∀ f ∈ pulls, ∀ c, f.kind ≠ .client c := by simp [pulls]
  exact fun f hf => FactorClass.batched_of_library (fun _ => rfl) (hlibrary f hf)

theorem pulledStore_typed : pulledStore.Typed := by
  intro key b hb
  have hmem : (key, b) ∈ [(Key.type (.real 1), _)] := Table.get?_eq_some_iff.1 hb
  cases List.mem_singleton.1 hmem
  exact ⟨.real 1, rfl, rfl⟩

theorem pulls_summed : ∃ graph graph', ofFactors pulls = .ok graph ∧ ofFactors pulls.reverse = .ok graph' ∧
    graph.factorCount = .ok 3 ∧ graph.error pulledStore.bulk = .ok (17 / 2) ∧
    graph'.error pulledStore.bulk = .ok (17 / 2) ∧ (graph.gradient pulledStore).isOk = true ∧
    (graph.linearize pulledStore).isOk = true ∧
    Matches (fun v w => v.equal w = .ok true) (graph.gradient pulledStore) (graph'.gradient pulledStore) ∧
    Matches LinearGraph.SameNormal (graph.linearize pulledStore) (graph'.linearize pulledStore) := by
  have hsucceeds : (ofFactors pulls >>= fun graph => graph.gradient pulledStore).isOk = true ∧
      (ofFactors pulls >>= fun graph => graph.linearize pulledStore).isOk = true := by
    decide +kernel
  obtain ⟨graph, hgraph⟩ := Checked.exists_of_isOk (show (ofFactors pulls).isOk = true by decide +kernel)
  simp only [hgraph, Checked.ok_bind] at hsucceeds
  obtain ⟨-, -, hcount, ⟨xs, hxs, herror⟩, -, -, hperm⟩ :=
    sums_of_list (s := pulledStore) (fun _ => rfl) alone_pulls hgraph
  obtain ⟨graph', hgraph', herror', -, hequations⟩ := hperm pulls.reverse (List.reverse_perm pulls).symm
  obtain rfl := Except.ok.inj (hxs.symm.trans errors_pulls)
  have hsum : [2, 2, 9 / 2].sum = (17 / 2 : ℚ) := by norm_num
  rw [hsum] at herror
  have hsingle : ∀ f ∈ pulls, ∀ a ∈ f.handles, a.Single := by
    have hzero : Handle.Single (⟨.real 1, .int 0⟩ : Handle (Item ℚ)) := ⟨.scalar 0, rfl, rfl⟩
    have hone : Handle.Single (⟨.real 1, .int 1⟩ : Handle (Item ℚ)) := ⟨.scalar 1, rfl, rfl⟩
    simp [pulls, hzero, hone]
  obtain ⟨hgradient, hlinear⟩ := hequations pulledStore_typed hsingle
  exact ⟨graph, graph', hgraph, hgraph', hcount, herror, herror'.trans herror, hsucceeds.1, hsucceeds.2, hgradient,
    hlinear⟩

/-- A prior at zero for two motions of the plane at once. -/
def doublePrior (i j : Int) : FactorLiteral Catalogue ℚ :=
  ⟨.prior, [⟨.lie .se2, .array .device (.ints (.vector #[i, j]))⟩],
    [planar #[1, 0, 0, 0],
      (Noise.diagonal (.reals ⟨[2, 3], #[1, 1, 1, 1, 1, 1], rfl⟩)).tree (Item.array .device)]⟩

/-- Motions of the plane without rotations, along one axis. -/
def slid : Store Catalogue ℚ where
  buffers := .ofList
    [(.type (.lie .se2), .of (.values (.ofGroup .se2 ⟨[4, 4], #[1, 0, 1, 0, 1, 0, 2, 0, 1, 0, 3, 0, 1, 0, 5, 0], rfl⟩))
      (.values (.lie .se2)))]

/-- The gradient does depend on the order of factors whose handles name several variables. -/
theorem gradient_of_doublePriors : Alone slid [doublePrior 0 1, doublePrior 2 3] ∧
    ∃ graph graph' v w, ofFactors [doublePrior 0 1, doublePrior 2 3] = .ok graph ∧
      ofFactors [doublePrior 2 3, doublePrior 0 1] = .ok graph' ∧ graph.gradient slid = .ok v ∧
      graph'.gradient slid = .ok w ∧ v.equal w = .ok false := by
  have herrors : [doublePrior 0 1, doublePrior 2 3].mapM (Factor.errorAt slid) = .ok [5 / 2, 17] := by decide +kernel
  have hlibrary : ∀ i j, (doublePrior i j).kind.Batched ℚ := fun _ _ =>
    FactorClass.batched_of_library (fun _ => rfl) nofun
  have hdiffer : (do
      let graph ← ofFactors [doublePrior 0 1, doublePrior 2 3]
      let graph' ← ofFactors [doublePrior 2 3, doublePrior 0 1]
      let v ← graph.gradient slid
      let w ← graph'.gradient slid
      v.equal w) = (.ok false : Checked Bool) := by decide +kernel
  refine ⟨alone_of_mapM herrors fun f hf => ?_, ?_⟩
  · rcases List.mem_pair.1 hf with rfl | rfl <;> exact hlibrary ..
  · obtain ⟨graph, hgraph, hdiffer⟩ := Checked.bind_eq_ok hdiffer
    obtain ⟨graph', hgraph', hdiffer⟩ := Checked.bind_eq_ok hdiffer
    obtain ⟨v, hv, hdiffer⟩ := Checked.bind_eq_ok hdiffer
    obtain ⟨w, hw, hdiffer⟩ := Checked.bind_eq_ok hdiffer
    exact ⟨graph, graph', v, w, hgraph, hgraph', hv, hw, hdiffer⟩

end FactorGraph

end LeastSquares
