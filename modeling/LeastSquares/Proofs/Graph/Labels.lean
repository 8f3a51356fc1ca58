import LeastSquares.Proofs.Graph.Gauge
import LeastSquares.Proofs.Graph.Switching

/-!
# Labels in linear problems

The transpose of a linear graph adds up what each of its linear factors deposits, so linear graphs with the same
factors map vectors back to the same, wherever the factors stand. With this, a graph with labels is in
all respects the graph of the motions that they choose: in its errors, its gradient and its linear problem. There
the factor of a label has blocks for the two ends, and none for the label.
-/

namespace LeastSquares

open Checked (amount Matches)

namespace Factor

variable {C α : Type} [DecidableEq C] [FactorFamily C] [LinearOrder α] [ExactScalar α]

/-- What a linear factor deposits for a vector of its residual space, if there is one. -/
def returned (L : Layout C) (g : Checked (FactorStack C α)) (y : Checked (Block α)) :
    WithTop (L.cells → α) :=
  match y with
  | .error _ => 0
  | .ok y => amount ((g >>= fun g => (g.adjoint y).map fun vs => g.handles.zip vs).map (deposits L))

/-- The transpose of a linear stack adds what each of its rows deposits. -/
theorem Linear.adds_stackAdjoint {L : Layout C} {n m : Nat} {G : FactorStack C α} (h : G.Linear L n m)
    (hL : L.Tangent) {t : Tensor α} (ht : t.shape = [n, m]) :
    Vectors.Adds L (G.stackAdjoint (.reals t))
      ((List.range n).map fun i => returned L (.ok (G.row i)) (.ok ((Block.reals t).row i))).sum := by
  suffices hcontributes : ∀ i ∈ List.range n, ∀ row,
      (((G.row i).adjoint ((Block.reals t).row i)).map fun vs => (G.row i).handles.zip vs) = .ok row →
      List.Forall₂ (Contributes L) (G.terms.map (·.type)) row from
    (adds_of_rows hL hcontributes).congr (h.stackAdjoint_eq ht)
  intro i hi row hrow
  have hi := List.mem_range.1 hi
  have hy : ((Block.reals t).row i).Tabulates [m] fun j => t.entry (i * m + j) :=
    ⟨t.row i, rfl, by rw [Tensor.shape_row, ht]; rfl, fun j hj => by
      rw [Tensor.entry_row ht i hj, Shape.volume_row]⟩
  obtain ⟨vs, hvs, hsends⟩ := h.adjoint_row hy i
  rw [hvs] at hrow
  cases hrow
  rw [List.forall₂_map_left_iff]
  refine List.forall₂_iff_zip.2 ⟨hsends.length_eq, fun {T p} hmem => ?_⟩
  obtain ⟨htype, -, v, hv, hshape, -⟩ := (List.forall₂_iff_zip.1 hsends).2 hmem
  obtain ⟨a, ha, hpoint⟩ := List.mem_map.1 (List.of_mem_zip (List.of_mem_zip hmem).2).1
  exact ⟨htype, hpoint ▸ (h.addressed a ha).points hi, v, hv, hshape⟩

end Factor

namespace LinearGraph

variable {C α : Type} [DecidableEq C] [FactorFamily C] [LinearOrder α] [ExactScalar α]

theorem exists_adds_adjointStep {L : Layout C} (y : Buffers C α) (e : Key C × Buffer C α) :
    ∃ d, Vectors.Adds L (fun out => adjointStep y out e) d := by
  cases hempty : (y.buffer e.1).isEmpty with
  | true =>
    refine ⟨0, Vectors.adds_zero fun v hv => ⟨v, ?_, hv, rfl⟩⟩
    rw [adjointStep, hempty]
    rfl
  | false =>
    obtain ⟨d, hd⟩ := Vectors.exists_adds_of_run (L := L) e.2.factors
      (f := fun F v => (y.buffer e.1).rows >>= fun rows => F.stackAdjoint rows v) fun F _ =>
        Vectors.exists_adds_of_run _ fun rows _ => F.exists_adds_stackAdjoint rows
    refine ⟨d, hd.congr fun v => ?_⟩
    rw [adjointStep, hempty]
    rfl

end LinearGraph

namespace FactorGraph

variable {C α : Type} [DecidableEq C] [FactorFamily C] [LinearOrder α] [ExactScalar α] {s : Store C α}
  {fs fs' : List (FactorLiteral C α)} {A B : LinearGraph C α} {k : GroupKey C} {b : Buffer C α}

/-- The transpose of a group of relative motions adds what each of its factors deposits. -/
theorem Linearised.adds_adjointStep (h : Linearised s fs A) (hs : s.WellFormed) {y : Vectors C α}
    (hy : y.Fits A.equations) (hk : k.Moves) (hb : A.buffers.get? (.group k) = some b) :
    Vectors.Adds s.tangents (fun out => LinearGraph.adjointStep y.buffers out (.group k, b))
      ((members k fs).zipIdx.map fun q =>
        Factor.returned s.tangents (A.rowOf k q.2) (y.rowOf k q.2)).sum := by
  obtain ⟨G, m, hG, -, hlinear, -⟩ := h.group k b hk hb
  have hrowOf : ∀ i, A.rowOf k i = .ok (G.row i) := by
    intro i
    rw [LinearGraph.rowOf, hb, fitting_some, Checked.ok_bind, hG]
    rfl
  simp only [hrowOf]
  rcases hy _ (List.mem_toFinset.2 (Table.mem_keys_iff.2 ⟨b, hb⟩)) with hempty | ⟨t, ht, hshape⟩
  · have hnone : ∀ i, ∃ e, y.rowOf k i = .error e := by
      intro i
      rw [Vectors.rowOf, Buffer.rows, Buffer.stack_eq_none hempty]
      exact ⟨_, rfl⟩
    have hzero : ((members k fs).zipIdx.map fun q =>
        Factor.returned s.tangents (.ok (G.row q.2)) (y.rowOf k q.2)).sum = 0 := by
      refine List.sum_eq_zero fun d hd => ?_
      obtain ⟨q, -, rfl⟩ := List.mem_map.1 hd
      obtain ⟨e, he⟩ := hnone q.2
      rw [he]
      rfl
    rw [hzero]
    exact Vectors.adds_zero fun v hv => ⟨v, if_pos hempty, hv, rfl⟩
  · obtain ⟨-, hrows, hwidth⟩ := LinearGraph.equations_eq hb hG hlinear
    rw [hrows, hwidth] at hshape
    have hyrows := Buffer.rows_of_stack ht.2
    have hvalue : ∀ i, y.rowOf k i = .ok ((Block.reals t).row i) := by
      intro i
      rw [Vectors.rowOf, hyrows]
      rfl
    simp only [hvalue]
    have hsum : ((members k fs).zipIdx.map fun q => Factor.returned s.tangents (.ok (G.row q.2))
        (.ok ((Block.reals t).row q.2))).sum = ((List.range (members k fs).length).map fun i =>
          Factor.returned s.tangents (.ok (G.row i)) (.ok ((Block.reals t).row i))).sum :=
      congrArg List.sum (List.ext_getElem (by simp) fun i _ _ => by simp)
    rw [hsum]
    refine (hlinear.adds_stackAdjoint hs.tangent hshape).congr fun v => ?_
    show (if (y.buffer (.group k)).isEmpty then .ok v else b.factors >>= fun F =>
      (y.buffer (.group k)).rows >>= fun rows => F.stackAdjoint rows v) = _
    rw [ht.isEmpty, hyrows, hG]
    rfl

/-- Both linear graphs map vectors that agree factor by factor back to the same. -/
theorem Settled.adjoint_eq (hfs : Settled s fs fs') (hA : Linearised s fs A) (hB : Linearised s fs' B)
    (hs : s.WellFormed)
    (hother : ∀ key, ¬ Among GroupKey.Moves key → A.buffers.get? key = B.buffers.get? key)
    {y y' : Vectors C α} (hy : y.Fits A.equations) (hy' : y'.Fits B.equations) (hsame : SameRows fs fs' y y') :
    Matches (fun v w => v.Fills s.tangents ∧ w.Fills s.tangents ∧
      v.onCells s.tangents = w.onCells s.tangents) (A.adjoint y.buffers) (B.adjoint y'.buffers) := by
  obtain ⟨zeros, hzeros, hfills⟩ := hs.tangentZeros_fills
  choose D hD using LinearGraph.exists_adds_adjointStep (L := s.tangents) (C := C) (α := α)
  have hadds : ∀ (g : LinearGraph C α) (y : Buffers C α), Vectors.Adds s.tangents
      (fun v => g.buffers.entries.foldlM (LinearGraph.adjointStep y) v)
      (g.buffers.entries.map fun e => D y e).sum := fun g y =>
    Vectors.Adds.foldlM fun e _ => hD y e
  have hgroup : ∀ {fs : List (FactorLiteral C α)} {A : LinearGraph C α} {y : Vectors C α},
      Linearised s fs A → y.Fits A.equations → ∀ k b, k.Moves → A.buffers.get? (.group k) = some b →
      D y.buffers (.group k, b) = ((members k fs).zipIdx.map fun q => Factor.returned s.tangents
        (A.rowOf (.ofItems q.1) q.2) (y.rowOf (.ofItems q.1) q.2)).sum := by
    intro fs A y h hy k b hk hb
    rw [(hD y.buffers _).eq (h.adds_adjointStep hs hy hk hb) hfills]
    refine congrArg List.sum (List.map_congr_left fun q hq => ?_)
    rw [key_of_mem_members (List.fst_mem_of_mem_zipIdx hq)]
  have htotal : (A.buffers.entries.map fun e => D y.buffers e).sum =
      (B.buffers.entries.map fun e => D y'.buffers e).sum := by
    refine sum_entries_eq (P := GroupKey.Moves) (fun f hf hk => hA.keys f hf hk)
      (fun f hf hk => hB.keys f hf hk) hother (hgroup hA hy) (hgroup hB hy') (fun e _ hkey => ?_)
      (hfs.sum_eq (fun q => Factor.returned s.tangents (A.rowOf (.ofItems q.1) q.2)
          (y.rowOf (.ofItems q.1) q.2))
        (fun q => Factor.returned s.tangents (B.rowOf (.ofItems q.1) q.2) (y'.rowOf (.ofItems q.1) q.2))
        fun j hj hj' hk => ?_)
    · refine (hD y.buffers e).eq ((hD y'.buffers e).congr fun v => ?_) hfills
      rw [LinearGraph.adjointStep, LinearGraph.adjointStep]
      simp only [show y.buffers.buffer e.1 = y'.buffers.buffer e.1 from hsame.others e.1 hkey]
    · have hrow := hsame.rows j
      rw [Vectors.rowAt, Vectors.rowAt, List.getElem?_eq_getElem hj, List.getElem?_eq_getElem hj',
        fitting_some, fitting_some, Checked.ok_bind, Checked.ok_bind] at hrow
      dsimp only
      rw [hfs.rowOf_eq hA hB hj hj' hk, hrow]
  have htemplate : A.template = B.template := Except.ok.inj (hA.template.symm.trans hB.template)
  have hzero : A.template = zeros := Except.ok.inj (hA.template.symm.trans hzeros)
  have hmatches := (hadds A y.buffers).matches (htotal ▸ hadds B y'.buffers) hfills
  rw [← hzero] at hmatches
  show Matches _ (A.buffers.entries.foldlM (LinearGraph.adjointStep y.buffers) A.template)
    (B.buffers.entries.foldlM (LinearGraph.adjointStep y'.buffers) B.template)
  rw [← htemplate]
  exact hmatches

end FactorGraph

/-! ## Ends -/

namespace Factor

variable {C α : Type} [DecidableEq C] [FactorFamily C] [LinearOrder α] [ExactScalar α] {s : Store C α}
  {f : FactorLiteral C α} {g : FactorStack C α}

/-- A linear factor with two variables, as they are given, and a block for each. -/
def Joins (start stop : Handle (Item α)) (g : FactorStack C α) : Prop :=
  ∃ a b J K e m, g = ofJacobian [a, b] [J, K] e ∧
    (a.type = start.type ∧ start.index.block? = some a.index ∧ J.shape = [m, start.type.tangentDim]) ∧
    (b.type = stop.type ∧ stop.index.block? = some b.index ∧ K.shape = [m, stop.type.tangentDim]) ∧
    e.shape = [m]

/-- The linear factor of a factor with a label joins the other two variables. -/
theorem joins_of_switching {start label stop : Handle (Item α)} {fields : List (Literal α)}
    (hf : f = ⟨.switchingBetween, [start, label, stop], fields⟩) (hg : settledLinear s f = .ok g) :
    g.Joins start stop := by
  obtain ⟨p, hp, hg⟩ := Checked.bind_eq_ok hg
  obtain ⟨e, he, hp⟩ := Checked.bind_eq_ok hp
  obtain ⟨r, hr, hp⟩ := Checked.bind_eq_ok hp
  cases hp
  have hstored := fitting_eq_ok hr
  obtain ⟨hkind, -⟩ | ⟨-, a, l, b, movement, noise, hhandles, rfl⟩ := settled_eq_ok he
  · exact absurd (hf ▸ rfl) hkind
  obtain ⟨rfl, rfl, rfl⟩ : start = a ∧ label = l ∧ stop = b := by simpa [hf] using hhandles
  have hrkind : r.inReals.kind = .between := congrArg (·.1) (stored?_spec hstored).1
  have hends := handles_of_stored? hstored
  obtain ⟨values, -, hg⟩ := Checked.bind_eq_ok hg
  rw [linearized_between hrkind] at hg
  obtain ⟨_, -, hg⟩ := Checked.bind_eq_ok hg
  obtain ⟨m, blocks, error, rfl, hshapes, herror, -⟩ := linearizing_between hrkind hg
  rw [inReals, handles_mapFields] at hshapes ⊢
  generalize r.handles = ends at hends hshapes
  obtain - | ⟨⟨hatype, ha⟩, - | ⟨⟨hbtype, hb⟩, - | -⟩⟩ := hends
  obtain - | ⟨hJ, - | ⟨hK, - | -⟩⟩ := hshapes
  exact ⟨_, _, _, _, _, m, rfl, ⟨hatype, ha, hatype ▸ hJ⟩, ⟨hbtype, hb, hbtype ▸ hK⟩, herror⟩

end Factor

namespace FactorGraph

variable {C α : Type} [DecidableEq C] [FactorFamily C] [LinearOrder α] [ExactScalar α] {s : Store C α}
  {fs fs' : List (FactorLiteral C α)} {f : FactorLiteral C α} {graph graph' : FactorGraph C α}
  {A B : LinearGraph C α}

/-! ## Both graphs -/

/-- The factors of a graph can be settled, and stored. -/
theorem Labelled.exists_settled (h : Labelled s fs) (hs : s.WellFormed) (hgraph : ofFactors fs = .ok graph)
    (hf : f ∈ fs) : ∃ e, f.settled s = .ok e ∧ ∃ g, e.stored? = some g := by
  by_cases hk : (GroupKey.ofItems f).Moves
  · obtain ⟨b, hb⟩ := Table.mem_keys_iff.1 (mem_keys_of_ofFactors hgraph hf)
    obtain ⟨-, F, -, hmotions⟩ := h.motions hs hgraph hk hb
    obtain ⟨i, hi, hget⟩ := List.getElem_of_mem (mem_members hf)
    obtain ⟨p, hp⟩ := hmotions.settles i hi
    have hreals := hp.settled
    rw [hget] at hreals
    obtain ⟨e, he, hreals⟩ := Checked.bind_eq_ok hreals
    obtain ⟨g, hg, -⟩ := Checked.bind_eq_ok hreals
    exact ⟨e, he, g, fitting_eq_ok hg⟩
  · refine ⟨f, Factor.settled_of_ne fun hkind => hk (.inl hkind), (holds_of_ofFactors hgraph).stored hf⟩

/-- Two linear graphs with the same factors, one by one, that map vectors in the same way and back. Where
a label chose the motion of a factor, its linear factor joins the two ends. -/
structure AgreeByFactor (s : Store C α) (fs fs' : List (FactorLiteral C α)) (A B : LinearGraph C α) :
    Prop where
  template : A.template = B.template
  tangent : A.template.Fills s.tangents
  factors : ∀ j, A.factorAt fs j = B.factorAt fs' j
  ends : ∀ j start label stop fields, fs[j]? = some ⟨.switchingBetween, [start, label, stop], fields⟩ →
    ∃ g, A.factorAt fs j = .ok g ∧ g.Joins start stop
  forward : ∀ x : Vectors C α, x.Fits s.tangents →
    Matches (SameRows fs fs') (A.forward x.bulk) (B.forward x.bulk)
  adjoint : ∀ y y' : Vectors C α, y.Fits A.equations → y'.Fits B.equations → SameRows fs fs' y y' →
    Matches (fun v w => v.Fills s.tangents ∧ w.Fills s.tangents ∧
      v.onCells s.tangents = w.onCells s.tangents) (A.adjoint y.buffers) (B.adjoint y'.buffers)

theorem Settled.linearize_eq (hfs : Settled s fs fs') (h : Labelled s fs) (hs : s.WellFormed)
    (hgraph : ofFactors fs = .ok graph) (hgraph' : ofFactors fs' = .ok graph') :
    Matches (AgreeByFactor s fs fs') (graph.linearize s) (graph'.linearize s) := by
  refine Checked.matches_of_iff (hfs.linearize_iff h hs hgraph hgraph') fun A B hA hB => ?_
  have hlinear := h.linearised hs hgraph hA
  have hlinear' := (hfs.labelled h).linearised hs hgraph' hB
  have hother : ∀ key, ¬ Among GroupKey.Moves key → A.buffers.get? key = B.buffers.get? key :=
    fun key hkey => hfs.get?_eq hgraph hgraph' hA hB hkey
  obtain ⟨zeros, hzeros, hfills⟩ := hs.tangentZeros_fills
  refine ⟨Except.ok.inj (hlinear.template.symm.trans hlinear'.template), ?_,
    fun j => hfs.factorAt_eq hlinear hlinear' hother j, fun j start label stop fields hj => ?_,
    fun x hx => hfs.forward_eq hlinear hlinear' hs hother hx,
    fun y y' hy hy' hsame => hfs.adjoint_eq hlinear hlinear' hs hother hy hy' hsame⟩
  · rwa [Except.ok.inj (hlinear.template.symm.trans hzeros)]
  · obtain ⟨hlt, hget⟩ := List.getElem?_eq_some_iff.1 hj
    obtain ⟨g, hg, hsettled⟩ := hlinear.rowOf hlt (.inl (hget ▸ rfl))
    refine ⟨g, ?_, Factor.joins_of_switching hget hsettled⟩
    rw [LinearGraph.factorAt, hj, ← hget, fitting_some, Checked.ok_bind, hg]

/-- A graph with labels is the graph of relative motions that they choose: it has the same error and the same
gradient, and becomes the same linear problem, which no label enters. -/
theorem labels_choose_motions (hs : s.WellFormed) (h : Labelled s fs) (hgraph : ofFactors fs = .ok graph) :
    ∃ fs' graph', fs.mapM (Factor.settled s) = .ok fs' ∧ ofFactors fs' = .ok graph' ∧
      Matches Eq (graph.error s.bulk) (graph'.error s.bulk) ∧
      Matches Eq (graph.residualError s.bulk) (graph'.residualError s.bulk) ∧
      Matches (fun v w => v.Fills s.tangents ∧ w.Fills s.tangents ∧
        v.onCells s.tangents = w.onCells s.tangents) (graph.gradient s) (graph'.gradient s) ∧
      Matches (AgreeByFactor s fs fs') (graph.linearize s) (graph'.linearize s) := by
  obtain ⟨fs', hsettle, hspec⟩ := Checked.mapM_forall₂ (l := fs) (f := Factor.settled s)
    (P := fun f e => f.settled s = .ok e ∧ ∃ g, e.stored? = some g) fun f hf => by
      obtain ⟨e, he, hstored⟩ := h.exists_settled hs hgraph hf
      exact ⟨e, he, he, hstored⟩
  have hfs : Settled s fs fs' := hspec.imp fun _ _ h => h.1
  have hstored : ∀ e ∈ fs', ∃ g, e.stored? = some g := by
    intro e he
    obtain ⟨j, hj, rfl⟩ := List.getElem_of_mem he
    exact (hspec.get (hspec.length_eq ▸ hj) hj).2
  obtain ⟨graph', hgraph'⟩ := exists_ofFactors hstored
  obtain ⟨herror, hresidual⟩ := hfs.error_eq h hs hgraph hgraph'
  exact ⟨fs', graph', hsettle, hgraph', herror, hresidual, hfs.gradient_eq h hs hgraph hgraph',
    hfs.linearize_eq h hs hgraph hgraph'⟩

/-- The label of a link chooses the second of two motions. -/
theorem links_labelled : Labelled linkedStore links := by
  have hrange : ∀ {T : VariableType} {i : Nat}, Key.type T ∈ linkedStore.layout.keys →
      i < linkedStore.layout.rows (.type T) →
      Handle.InRange linkedStore.layout (⟨T, .int i⟩ : Handle (Item ℚ)) :=
    fun {T i} hkey hi => ⟨hkey, i, rfl, hi⟩
  have hmotion : Key.type (.lie .se2) ∈ linkedStore.layout.keys := by decide +kernel
  have hlabel : Key.type .discrete ∈ linkedStore.layout.keys := by decide +kernel
  constructor
  · intro f hf
    rcases List.mem_pair.1 hf with rfl | rfl
    · simpa using ⟨hrange hmotion (by decide +kernel), hrange hmotion (by decide +kernel)⟩
    · simpa using ⟨hrange hmotion (by decide +kernel), hrange hlabel (by decide +kernel),
        hrange hmotion (by decide +kernel)⟩
  · intro f hf hkind
    rcases List.mem_pair.1 hf with rfl | rfl
    · cases hkind
    · refine ⟨_, _, _, _, _, 2, 1, rfl, rfl, rfl, fun i hi => ?_, by decide +kernel, by omega, by omega⟩
      obtain rfl := List.mem_singleton.1 hi
      exact ⟨_, _, rfl, rfl⟩

theorem links_choose : ∃ graph fs' graph', ofFactors links = .ok graph ∧
    graph.error linkedStore.bulk = .ok 5 ∧ (graph.gradient linkedStore).isOk = true ∧
    (graph.linearize linkedStore).isOk = true ∧
    links.mapM (Factor.settled linkedStore) = .ok fs' ∧ ofFactors fs' = .ok graph' ∧
    Matches Eq (graph.error linkedStore.bulk) (graph'.error linkedStore.bulk) ∧
    Matches Eq (graph.residualError linkedStore.bulk) (graph'.residualError linkedStore.bulk) ∧
    Matches (fun v w => v.Fills linkedStore.tangents ∧ w.Fills linkedStore.tangents ∧
      v.onCells linkedStore.tangents = w.onCells linkedStore.tangents)
      (graph.gradient linkedStore) (graph'.gradient linkedStore) ∧
    Matches (AgreeByFactor linkedStore links fs') (graph.linearize linkedStore)
      (graph'.linearize linkedStore) := by
  have hsucceeds : (ofFactors links >>= fun graph => graph.error linkedStore.bulk) = .ok 5 ∧
      (ofFactors links >>= fun graph => graph.gradient linkedStore).isOk = true ∧
      (ofFactors links >>= fun graph => graph.linearize linkedStore).isOk = true := by
    decide +kernel
  obtain ⟨graph, hgraph⟩ : ∃ graph, ofFactors links = .ok graph := ⟨_, rfl⟩
  simp only [hgraph, Checked.ok_bind] at hsucceeds
  obtain ⟨herror, hgradient, hlinear⟩ := hsucceeds
  obtain ⟨fs', graph', h⟩ := labels_choose_motions linkedStore_wellFormed links_labelled hgraph
  exact ⟨graph, fs', graph', hgraph, herror, hgradient, hlinear, h⟩

end FactorGraph

end LeastSquares
