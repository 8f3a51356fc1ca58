import LeastSquares.Proofs.Graph.Listed

/-!
# Buckets of a graph

Factors whose leaves are arrays or numbers can be stored, whatever they are, and each goes to the end of
the bucket of its group. A bucket is one stack: of one class, one structure and one shape in each place,
with a row for each of its factors, whose group is that of the bucket again. Factors can be stacked
exactly if they are of one group.
-/

namespace LeastSquares

/-! ## Keys -/

section Keys

variable {C α : Type} [Scalar α] {e f : FactorLiteral C α} {d g : FactorStack C α}

/-- The group of a factor is told by its class, its variable types, the structure of its fields and the
shapes of its leaves. -/
theorem GroupKey.ofItems_eq_iff : ofItems e = ofItems f ↔
    e.frame = f.frame ∧ e.leaves.map Item.shape = f.leaves.map Item.shape := by
  refine ⟨fun h => ⟨Factor.frame_of_key h, congrArg shapes h⟩, fun ⟨hframe, hshapes⟩ => ?_⟩
  have hkind : e.kind = f.kind := congrArg (·.1) hframe
  have htypes : e.types = f.types := congrArg (·.2.1) hframe
  rw [ofItems, ofItems, hshapes, Factor.outlines_of_frame hframe, hkind, htypes]

/-- A factor with its leaves as arrays is of the group of the factor. -/
theorem GroupKey.ofBlocks_of_stored? (h : f.stored? = some g) : ofBlocks g = ofItems f := by
  obtain ⟨hframe, -, hshapes⟩ := Factor.stored?_spec h
  have hkind : g.kind = f.kind := congrArg (·.1) hframe
  have htypes : g.types = f.types := congrArg (·.2.1) hframe
  rw [ofBlocks, hshapes, Factor.outlines_of_frame hframe, hkind, htypes]
  rfl

omit [Scalar α] in
theorem GroupKey.ofBlocks_congr (hframe : d.frame = g.frame)
    (hshapes : d.leaves.map Block.shape = g.leaves.map Block.shape) : ofBlocks d = ofBlocks g := by
  have hkind : d.kind = g.kind := congrArg (·.1) hframe
  have htypes : d.types = g.types := congrArg (·.2.1) hframe
  rw [ofBlocks, ofBlocks, hshapes, Factor.outlines_of_frame hframe, hkind, htypes]

omit [Scalar α] in
theorem Factor.leafAt_shape_eq (h : d.leaves.map Block.shape = g.leaves.map Block.shape) {p : Nat}
    (hp : p < d.leaves.length) : (d.leafAt p).shape = (g.leafAt p).shape := by
  have hlength : d.leaves.length = g.leaves.length := by simpa using congrArg List.length h
  have hget := congrArg (fun l => l[p]?) h
  rw [leafAt_eq hp, leafAt_eq (hlength ▸ hp)]
  simpa [hp, hlength ▸ hp] using hget

variable [DecidableEq C]

/-- Two factors can be stacked if and only if they are of one group. -/
theorem GroupKey.stackable_iff (he : e.stored? = some d) (hf : f.stored? = some g) :
    (∃ F, Factor.stack? [d, g] = some F) ↔ ofItems e = ofItems f := by
  obtain ⟨hdframe, -, hdshapes⟩ := Factor.stored?_spec he
  obtain ⟨hgframe, -, hgshapes⟩ := Factor.stored?_spec hf
  constructor
  · rintro ⟨F, hF⟩
    obtain ⟨-, hframes, hleaves⟩ := Factor.stack?_spec hF
    have hdF : d.frame = F.frame := hframes d (by simp)
    have hgF : g.frame = F.frame := hframes g (by simp)
    have hlength : d.leaves.length = F.leaves.length := Factor.length_leaves_eq hdF
    have hlength' : g.leaves.length = F.leaves.length := Factor.length_leaves_eq hgF
    have hshapes : d.leaves.map Block.shape = g.leaves.map Block.shape := by
      refine List.ext_getElem (by simp [hlength, hlength']) fun p hp hp' => ?_
      have hpd : p < d.leaves.length := by simpa using hp
      have hpg : p < g.leaves.length := by simpa using hp'
      obtain ⟨s, -, hshape⟩ := Block.shape_eq_of_stack? (hleaves p (hlength ▸ hpd))
      rw [List.getElem_map, List.getElem_map, ← Factor.leafAt_eq hpd, ← Factor.leafAt_eq hpg,
        hshape _ (List.mem_map_of_mem (by simp)), hshape _ (List.mem_map_of_mem (by simp))]
    rw [← ofBlocks_of_stored? he, ← ofBlocks_of_stored? hf, ofBlocks_congr (hdF.trans hgF.symm) hshapes]
  · intro hkey
    have hframe : g.frame = d.frame := by rw [hdframe, hgframe, Factor.frame_of_key hkey]
    have hshapes : d.leaves.map Block.shape = g.leaves.map Block.shape := by
      rw [hdshapes, hgshapes, hkey]
    refine Factor.exists_stack?_of_leaves (F := d) (by simp) (by simpa using hframe) fun p hp => ?_
    have hpair := Factor.leafAt_shape_eq hshapes hp
    have hsame : ∀ b ∈ [d.leafAt p, g.leafAt p], b.shape = (d.leafAt p).shape := by simp [hpair]
    obtain ⟨u, hu, -⟩ := Block.stack?_numbers (by simp) hsame
    exact ⟨u, hu⟩

end Keys

/-! ## Stacks -/

section Stacks

variable {C α : Type} [DecidableEq C] [Scalar α]

omit [DecidableEq C] [Scalar α] in
/-- A factor traversed by a function that succeeds on its leaves. -/
theorem Factor.traverse_eq_map {β γ : Type} {f : β → Checked γ} {g : β → γ} {F : Factor C β β}
    (h : ∀ b ∈ F.leaves, f b = .ok (g b)) : F.traverse f f = .ok (F.map g g) := by
  rw [leaves_eq, List.forall_mem_append] at h
  obtain ⟨hindices, hfields⟩ := h
  have hhandles : (F.handles.mapM fun a => do return (⟨a.type, ← f a.index⟩ : Handle γ)) =
      .ok (F.handles.map fun a => ⟨a.type, g a.index⟩) := by
    refine Checked.mapM_of_forall₂ ?_
    rw [List.forall₂_map_right_iff, List.forall₂_same]
    intro a ha
    rw [hindices _ (List.mem_map_of_mem ha)]
    rfl
  have htrees : F.fields.mapM (Tree.traverse f) = .ok (F.fields.map (Tree.map g)) := by
    refine Checked.mapM_of_forall₂ ?_
    rw [List.forall₂_map_right_iff, List.forall₂_same]
    intro t ht
    refine Tree.traverse_eq_map t fun b hb => hfields b ?_
    rw [Tree.leaves_all_eq]
    exact List.mem_flatMap.2 ⟨t, ht, hb⟩
  rw [traverse, hhandles, htrees]
  rfl

/-- The rows of a stack are of the group of the factors. -/
theorem Factor.ofBlocks_row {fs : List (FactorStack C α)} {F : FactorStack C α}
    (h : stack? fs = some F) {i : Nat} (hi : i < fs.length) :
    GroupKey.ofBlocks (F.row i) = GroupKey.ofBlocks fs[i] := by
  have hframe : (F.row i).frame = (fs[i]).frame :=
    (frame_map ..).trans ((stack?_spec h).2.1 _ (List.getElem_mem hi)).symm
  have hshapes : (F.row i).leaves.map Block.shape = (fs[i]).leaves.map Block.shape := by
    have hleaves := leaves_row h hi
    rw [eq_comm, ← List.forall₂_eq_eq_eq, List.forall₂_map_left_iff, List.forall₂_map_right_iff]
    refine hleaves.imp ?_
    rintro b _ ⟨kind, -, rfl⟩
    exact (Block.shape_cast b kind).symm
  exact GroupKey.ofBlocks_congr hframe hshapes

omit [DecidableEq C] in
/-- An index that is a whole number in range takes a row out of a buffer of factors. -/
theorem Buffer.get_row {b : Buffer C α} {F : FactorStack C α} {n i : Nat}
    (hstack : b.stack = some (.factors F))
    (hextent : ∀ leaf ∈ F.leaves, leaf.shape.head? = some n) (hi : i < n)
    (hmax : (i : Int) ≤ Int64.maxValue.toInt) : b.get (.int i) = .ok (.factors (F.row i)) := by
  have hmin : Int64.minValue.toInt ≤ (i : Int) :=
    le_trans (show Int64.minValue.toInt ≤ 0 by decide) (Int.natCast_nonneg i)
  have hplaces : b.place.places (.int i : Item α) = .ok (.int i) := by
    have hblock : Item.block? (.int i : Item α) = some (.int i) := if_pos ⟨hmin, hmax⟩
    cases b.place <;> exact congrArg fitting hblock
  have htake : ∀ leaf ∈ F.leaves, (b.place.places (.int i : Item α) >>= fun places =>
      fitting (leaf.take? b.place.access places)) = .ok (leaf.row i) := by
    intro leaf hleaf
    obtain ⟨s, hs⟩ := List.head?_eq_some_iff.1 (hextent leaf hleaf)
    have hplace : b.place.access.locate n ((Tensor.scalar (i : Int)).entry 0) = some i := Access.locate_of_lt hi
    have hrow : leaf.take? b.place.access (.ints (.scalar i)) = some (leaf.row i) := Block.take?_row hs rfl hplace
    rw [hplaces, Checked.ok_bind, Block.int, hrow, fitting_some]
  rw [Buffer.get, hstack]
  exact congrArg (fun x : Checked (FactorStack C α) => x >>= fun F => Except.ok (Stack.factors F))
    (Factor.traverse_eq_map htake)

end Stacks

/-! ## Buckets -/

namespace FactorGraph

variable {C α : Type} [DecidableEq C] [FactorFamily C] [Scalar α]
  {fs : List (FactorLiteral C α)} {graph : FactorGraph C α} {k : GroupKey C}
  {ms : List (FactorLiteral C α)} {b : Buffer C α}

/-- The buffer is a stack of these factors, which are of one group. An index into it gives a factor of
the group again. Its leaves are those of the factor, in the widest of the kinds in their place. -/
structure Piled (k : GroupKey C) (ms : List (FactorLiteral C α)) (b : Buffer C α)
    (F : FactorStack C α) : Prop where
  content : b.content = some (.factors k.kind)
  stack : b.stack = some (.factors F)
  frame : ∀ f ∈ ms, F.frame = f.frame
  extent : ∀ leaf ∈ F.leaves, leaf.shape.head? = some ms.length
  count : F.leaves ≠ [] → b.count = .ok ms.length
  get : ∀ i, i < ms.length → (i : Int) ≤ Int64.maxValue.toInt →
    b.get (.int i) = .ok (.factors (F.row i))
  key : ∀ i, i < ms.length → GroupKey.ofBlocks (F.row i) = k
  leaves : ∃ rows, List.Forall₂ (fun f g => f.stored? = some g) ms rows ∧
    ∀ i (hi : i < rows.length) p, p < F.leaves.length →
      (F.row i).leafAt p = ((rows[i]).leafAt p).cast (Block.widest (rows.map (·.leafAt p)))

omit [FactorFamily C] in
theorem Bucket.piled (h : Bucket k ms b) (hkey : ∀ f ∈ ms, GroupKey.ofItems f = k) :
    ∃ F, Piled k ms b F := by
  obtain ⟨rows, F, hcontent, hstack, hrows, hF⟩ := h
  obtain ⟨hne, hframes, -⟩ := Factor.stack?_spec hF
  have hlength : ms.length = rows.length := hrows.length_eq
  have hstored : ∀ i (hi : i < rows.length), (ms[i]).stored? = some rows[i] :=
    fun i hi => hrows.get (hlength ▸ hi) hi
  have hextent : ∀ leaf ∈ F.leaves, leaf.shape.head? = some ms.length := by
    intro leaf hleaf
    obtain ⟨p, hp, rfl⟩ := List.getElem_of_mem hleaf
    rw [← Factor.leafAt_eq hp, (Factor.leafAt_stack? hF (List.length_pos_of_ne_nil hne) hp).1,
      hlength]
    rfl
  refine ⟨F, hcontent, hstack, fun f hf => ?_, hextent, fun hleaves => ?_, fun i hi hmax => ?_,
    fun i hi => ?_, rows, hrows, fun i hi p hp => ?_⟩
  · obtain ⟨i, hi, rfl⟩ := List.getElem_of_mem hf
    have hi' : i < rows.length := hlength ▸ hi
    rw [← hframes _ (List.getElem_mem hi'), (Factor.stored?_spec (hstored i hi')).1]
  · obtain ⟨leaf, rest, hfirst⟩ := List.exists_cons_of_ne_nil hleaves
    rw [Buffer.count, hstack]
    simp [Stack.count, Factor.count, hfirst, hextent leaf (by simp [hfirst])]
  · exact Buffer.get_row hstack hextent hi hmax
  · have hi' : i < rows.length := hlength ▸ hi
    rw [Factor.ofBlocks_row hF hi', GroupKey.ofBlocks_of_stored? (hstored i hi')]
    exact hkey _ (List.getElem_mem hi)
  · rw [← (Factor.leafAt_stack? hF hi hp).2.2, Factor.row, Factor.leafAt_eq hp,
      Factor.leafAt_eq (by rwa [Factor.leaves_map, List.length_map])]
    simp only [Factor.leaves_map, List.getElem_map]

/-- Factors whose leaves can be arrays can all be stored, one by one. The buckets are then stacks, each of
the factors of one group in the order in which they came, and each factor is in that of its group. Two
factors are in one bucket if and only if they agree in class, variable types, structure and shapes of the
leaves, that is, if and only if they can be stacked. -/
theorem buckets_of_stored (h : ∀ f ∈ fs, ∀ i ∈ f.leaves, ∃ b, Item.block? i = some b) :
    ∃ graph, ofFactors fs = .ok graph ∧
      (∀ key ∈ graph.buffers.keys, ∃ k b F, key = .group k ∧ members k fs ≠ [] ∧
        graph.buffers.get? key = some b ∧ Piled k (members k fs) b F) ∧
      (∀ f ∈ fs, Key.group (GroupKey.ofItems f) ∈ graph.buffers.keys ∧
        f ∈ members (.ofItems f) fs) ∧
      ∀ e ∈ fs, ∀ f ∈ fs, ((∃ k, e ∈ members k fs ∧ f ∈ members k fs) ↔
          e.frame = f.frame ∧ e.leaves.map Item.shape = f.leaves.map Item.shape) ∧
        ∀ {d g}, e.stored? = some d → f.stored? = some g →
          ((∃ k, e ∈ members k fs ∧ f ∈ members k fs) ↔ ∃ F, Factor.stack? [d, g] = some F) := by
  obtain ⟨graph, hgraph⟩ := exists_ofFactors fun f hf => Factor.traverse_ok (h f hf)
  have hholds := holds_of_ofFactors hgraph
  have hshared : ∀ e ∈ fs, ∀ f ∈ fs, (∃ k, e ∈ members k fs ∧ f ∈ members k fs) ↔
      GroupKey.ofItems e = GroupKey.ofItems f := by
    intro e he f hf
    refine ⟨fun ⟨k, hek, hfk⟩ => (key_of_mem_members hek).trans (key_of_mem_members hfk).symm,
      fun hkey => ⟨_, mem_members he, ?_⟩⟩
    rw [hkey]
    exact mem_members hf
  refine ⟨graph, hgraph, fun key hkey => ?_, fun f hf => ?_, fun e he f hf => ⟨?_, ?_⟩⟩
  · obtain ⟨f, hf, rfl⟩ := hholds.keys key hkey
    have hne : members (GroupKey.ofItems f) fs ≠ [] := List.ne_nil_of_mem (mem_members hf)
    obtain ⟨b, hb, hbucket⟩ := hholds.bucket _ hne
    obtain ⟨F, hF⟩ := hbucket.piled fun f hf => key_of_mem_members hf
    exact ⟨_, b, F, rfl, hne, hb, hF⟩
  · exact ⟨hholds.mem_keys_iff.2 (List.ne_nil_of_mem (mem_members hf)), mem_members hf⟩
  · rw [hshared e he f hf, GroupKey.ofItems_eq_iff]
  · intro d g hd hg
    rw [hshared e he f hf, GroupKey.stackable_iff hd hg]

/-! ## A graph over the rationals -/

/-- A spring of some strength. -/
def coil (strength : Item ℚ) : FactorLiteral Catalogue ℚ :=
  ⟨.scalarJacobian, [⟨.real 1, .int 0⟩], [.leaf strength]⟩

/-- Two springs, one of a strength given as an integer, with a constant in between. -/
def coils : List (FactorLiteral Catalogue ℚ) :=
  [coil (.real (1 / 2)), ⟨.jacobian, [], [.node .tuple [], .leaf (.array .device (.full [1] 1))]⟩,
    coil (.int 3)]

/-- The two springs share a bucket, in which both strengths are scalars. -/
theorem coils_piled : ∃ graph b, ∃ F : FactorStack Catalogue ℚ, ofFactors coils = .ok graph ∧
    graph.buffers.get? (.group (.ofItems (coil (.int 3)))) = some b ∧ b.count = .ok 2 ∧
    b.get (.int 1) = .ok (.factors (F.row 1)) ∧
    GroupKey.ofBlocks (F.row 1) = .ofItems (coil (.int 3)) ∧
    (F.row 1).leafAt 1 = (Block.int 3).cast .real := by
  have hcoil : ∀ (f : FactorLiteral Catalogue ℚ), f ∈ coils →
      ∀ i ∈ f.leaves, ∃ b, Item.block? i = some b := by
    have hmax : Int64.maxValue.toInt = 2 ^ 63 - 1 := rfl
    simp only [coils, List.forall_mem_cons, List.not_mem_nil, false_implies, implies_true, and_true]
    refine ⟨?_, ?_, ?_⟩ <;>
      simp [coil, Factor.leaves, Tree.leaves, Tree.leaves.all, Item.block?, hmax]
  obtain ⟨graph, hgraph, hbuckets, hkeys, -⟩ := buckets_of_stored hcoil
  obtain ⟨k, b, F, hk, -, hb, hF⟩ := hbuckets _ (hkeys (coil (.int 3)) (by simp [coils])).1
  obtain rfl := Key.group.inj hk
  have hmembers : members (GroupKey.ofItems (coil (.int 3))) coils =
      [coil (.real (1 / 2)), coil (.int 3)] := rfl
  rw [hmembers] at hF
  have hlength : F.leaves.length = 2 := Factor.length_leaves_eq (hF.frame (coil (.int 3)) (by simp))
  obtain ⟨rows, hrows, hleaves⟩ := hF.leaves
  refine ⟨graph, b, F, hgraph, hb, hF.count (by simp [← List.length_pos_iff, hlength]),
    hF.get 1 (by simp) (by decide), hF.key 1 (by simp), ?_⟩
  obtain ⟨d, _, hd, hrest, rfl⟩ := List.forall₂_cons_left_iff.1 hrows
  obtain ⟨g, _, hg, hnil, rfl⟩ := List.forall₂_cons_left_iff.1 hrest
  cases hnil
  cases hd
  cases hg
  exact hleaves 1 (by simp) 1 (by omega)

end FactorGraph

end LeastSquares
