import LeastSquares.Proofs.Buffer.Sum
import LeastSquares.Proofs.Graph.Growth
import LeastSquares.Proofs.Graph.Linearize

/-!
# Graphs as lists of factors

Factors that are arrays can be stored, in any order. A group of the graph depends on nothing but its
members, and what is added up over the groups, factor by factor, is added up over the list.
-/

namespace LeastSquares

open Checked (amount)

/-! ## Storing -/

section Storing

variable {C α : Type} [Scalar α] {e f : FactorLiteral C α} {g : FactorStack C α}

/-- Factors of one group have the same frame. -/
theorem Factor.frame_of_key (h : GroupKey.ofItems e = GroupKey.ofItems f) : e.frame = f.frame := by
  have houtlines : e.fields.map Tree.outline = f.fields.map Tree.outline := congrArg GroupKey.outlines h
  have hskeletons : e.fields.map Tree.skeleton = f.fields.map Tree.skeleton := by
    rw [← List.forall₂_eq_eq_eq, List.forall₂_map_left_iff, List.forall₂_map_right_iff] at houtlines ⊢
    exact houtlines.imp fun _ _ hst => Tree.skeleton_eq_of_outline hst
  exact congrArg₂ Prod.mk (congrArg GroupKey.kind h)
    (congrArg₂ Prod.mk (congrArg GroupKey.types h) hskeletons)

variable [DecidableEq C]

/-- A factor of the frame of a stack, with leaves of the same shapes, can be appended. -/
theorem Factor.exists_zip?_append {gs : List (FactorStack C α)} {F : FactorStack C α}
    (h : stack? gs = some F) (hframe : g.frame = F.frame)
    (hshapes : ∀ e ∈ gs, e.leaves.map Block.shape = g.leaves.map Block.shape) :
    ∃ G, F.zip? Block.append? (g.map Block.lifted Block.lifted) = some G := by
  obtain ⟨hne, hframes, hstack⟩ := stack?_spec h
  have hlength : g.leaves.length = F.leaves.length := length_leaves_eq hframe
  refine zip?_ok ((frame_map ..).trans hframe) fun p hp => ?_
  obtain ⟨k, hk, rfl⟩ := List.getElem_of_mem hp
  have hkF : k < F.leaves.length := by simp at hk; omega
  have hkg : k < g.leaves.length := hlength ▸ hkF
  have hcolumn : ∀ b ∈ gs.map (·.leafAt k), b.shape = (g.leafAt k).shape := by
    intro b hb
    obtain ⟨e, he, rfl⟩ := List.mem_map.1 hb
    have hke : k < e.leaves.length := (length_leaves_eq (hframes e he)).symm ▸ hkF
    have hshape := congrArg (fun l => l[k]?) (hshapes e he)
    rw [leafAt_eq hke, leafAt_eq hkg]
    simpa [hke, hkg] using hshape
  have hall : ∀ b ∈ gs.map (·.leafAt k) ++ [g.leafAt k], b.shape = (g.leafAt k).shape := by
    simpa [or_imp, forall_and] using hcolumn
  obtain ⟨u, hu, -⟩ := Block.stack?_widest (by simp) hall
  refine ⟨u, ?_⟩
  rw [← hu, ← Block.append?_of_stack? (hstack k hkF) hcolumn, leafAt_eq hkF, leafAt_eq hkg]
  simp [leaves_map]

end Storing

namespace FactorGraph

variable {C α : Type} [DecidableEq C] [FactorFamily C] [Scalar α]
  {fs fs' : List (FactorLiteral C α)} {f : FactorLiteral C α} {g : FactorStack C α}
  {graph graph' : FactorGraph C α} {k : GroupKey C} {ms : List (FactorLiteral C α)} {b b' : Buffer C α}

theorem Bucket.exists_append (h : Bucket k ms b) (hmembers : ∀ e ∈ ms, GroupKey.ofItems e = k)
    (hf : GroupKey.ofItems f = k) (hg : f.stored? = some g) : ∃ b', b.appendFactor f = .ok b' := by
  obtain ⟨rows, F, -, hstack, hrows, hF⟩ := h
  obtain ⟨hne, hframes, -⟩ := Factor.stack?_spec hF
  have hmember : ∀ r ∈ rows, ∃ e ∈ ms, e.stored? = some r := by
    intro r hr
    obtain ⟨i, hi, rfl⟩ := List.getElem_of_mem hr
    exact ⟨_, List.getElem_mem (hrows.length_eq ▸ hi), hrows.get (hrows.length_eq ▸ hi) hi⟩
  have hsame : ∀ r ∈ rows, r.frame = g.frame ∧ r.leaves.map Block.shape = g.leaves.map Block.shape := by
    intro r hr
    obtain ⟨e, he, hstored⟩ := hmember r hr
    obtain ⟨hframe, -, hshapes⟩ := Factor.stored?_spec hstored
    obtain ⟨hgframe, -, hgshapes⟩ := Factor.stored?_spec hg
    have hkey : GroupKey.ofItems e = GroupKey.ofItems f := (hmembers e he).trans hf.symm
    rw [hframe, hgframe, hshapes, hgshapes, hkey]
    exact ⟨Factor.frame_of_key hkey, rfl⟩
  obtain ⟨r, hr⟩ := List.exists_mem_of_ne_nil rows hne
  have hframe : g.frame = F.frame := (hsame r hr).1.symm.trans (hframes r hr)
  obtain ⟨G, hG⟩ := Factor.exists_zip?_append hF hframe fun r hr => (hsame r hr).2
  have hrow : (g.map Block.lifted Block.lifted).frame = F.frame := (Factor.frame_map ..).trans hframe
  have hfits : F.kind = (g.map Block.lifted Block.lifted).kind ∧
      F.types = (g.map Block.lifted Block.lifted).types ∧
      F.outlines = (g.map Block.lifted Block.lifted).outlines :=
    ⟨congrArg (·.1) hrow.symm, congrArg (·.2.1) hrow.symm, Factor.outlines_of_frame hrow.symm⟩
  refine ⟨b.holding (.factors G) .host, ?_⟩
  unfold Buffer.appendFactor
  simp only [hg, fitting_some, Checked.ok_bind, hstack, hfits, and_self, decide_true, require_true, hG]
  rfl

theorem Holds.exists_insert (h : Holds fs graph) (hg : f.stored? = some g) :
    ∃ graph', graph.insert f = .ok graph' := by
  obtain ⟨b, hb⟩ : ∃ b, Buffer.appendFactor
      (if (graph.buffers.buffer (.group (.ofItems f))).isEmpty then
        { Buffer.empty with content := some (.factors f.kind), place := .host }
      else graph.buffers.buffer (.group (.ofItems f))) f = .ok b := by
    split
    next =>
      unfold Buffer.appendFactor
      simp only [hg, fitting_some, Checked.ok_bind]
      exact ⟨_, rfl⟩
    next hempty =>
      rcases eq_or_ne (members (.ofItems f) fs) [] with hnil | hne
      · refine absurd ?_ hempty
        rw [Buffers.buffer_of_not_mem]
        · rfl
        · intro hmem
          obtain ⟨e, he, hkey⟩ := h.keys _ hmem
          have hmember : e ∈ members (.ofItems f) fs :=
            List.mem_filter.2 ⟨he, decide_eq_true (Key.group.inj hkey).symm⟩
          rw [hnil] at hmember
          cases hmember
      · obtain ⟨old, hold, hbucket⟩ := h.bucket _ hne
        rw [Buffers.buffer_of_get? hold]
        exact hbucket.exists_append (fun e he => key_of_mem_members he) rfl hg
  refine ⟨⟨graph.buffers.insert (.group (.ofItems f)) b⟩, ?_⟩
  unfold FactorGraph.insert
  simp only [hb, Checked.ok_bind]
  rfl

/-- Factors can be stored that are arrays. -/
theorem exists_ofFactors (h : ∀ f ∈ fs, ∃ g, f.stored? = some g) :
    ∃ graph, ofFactors fs = .ok graph := by
  induction fs using List.reverseRecOn with
  | nil => exact ⟨_, rfl⟩
  | append_singleton fs f ih =>
    obtain ⟨before, hbefore⟩ := ih fun e he => h e (by simp [he])
    obtain ⟨g, hg⟩ := h f (by simp)
    obtain ⟨after, hafter⟩ := (holds_of_ofFactors hbefore).exists_insert hg
    refine ⟨after, ?_⟩
    rw [ofFactors, List.foldlM_append, show fs.foldlM insert empty = .ok before from hbefore,
      Checked.ok_bind, List.foldlM_cons, hafter]
    rfl

/-! ## Groups -/

omit [FactorFamily C] in
theorem Holds.mem_keys_iff (h : Holds fs graph) :
    Key.group k ∈ graph.buffers.keys ↔ members k fs ≠ [] := by
  constructor
  · intro hmem hnil
    obtain ⟨f, hf, hkey⟩ := h.keys _ hmem
    have hmember : f ∈ members k fs :=
      List.mem_filter.2 ⟨hf, decide_eq_true (Key.group.inj hkey).symm⟩
    rw [hnil] at hmember
    cases hmember
  · intro hne
    obtain ⟨b, hb, -⟩ := h.bucket k hne
    exact Table.mem_keys_iff.2 ⟨b, hb⟩

omit [FactorFamily C] in
theorem mem_members (hf : f ∈ fs) : f ∈ members (.ofItems f) fs :=
  List.mem_filter.2 ⟨hf, by simp⟩

omit [FactorFamily C] in
/-- The factors of a graph are arrays. -/
theorem Holds.stored (h : Holds fs graph) (hf : f ∈ fs) : ∃ g, f.stored? = some g := by
  obtain ⟨b, -, rows, F, -, -, hrows, -⟩ := h.bucket _ (List.ne_nil_of_mem (mem_members hf))
  obtain ⟨i, hi, hget⟩ := List.getElem_of_mem (mem_members hf)
  have hstored := hrows.get hi (hrows.length_eq ▸ hi)
  rw [List.get_eq_getElem, hget] at hstored
  exact ⟨_, hstored⟩

omit [FactorFamily C] in
/-- A buffer of the graph is the bucket of a group. -/
theorem Holds.bucket_of_get? (h : Holds fs graph) {key : Key C} (hb : graph.buffers.get? key = some b) :
    ∃ k, key = .group k ∧ Bucket k (members k fs) b := by
  obtain ⟨f, -, rfl⟩ := h.keys key (Table.mem_keys_iff.2 ⟨b, hb⟩)
  obtain ⟨c, hc, hbucket⟩ := h.bucket _ (h.mem_keys_iff.1 (Table.mem_keys_iff.2 ⟨b, hb⟩))
  obtain rfl := Option.some.inj (hb.symm.trans hc)
  exact ⟨_, rfl, hbucket⟩

/-- Buffers of stored factors lie on the host, and none of them is shared. -/
theorem fresh_of_ofFactors (h : ofFactors fs = .ok graph) {key : Key C}
    (hb : graph.buffers.get? key = some b) : b.place = .host ∧ b.serial = none := by
  induction fs using List.reverseRecOn generalizing graph with
  | nil =>
    cases h
    cases hb
  | append_singleton fs f ih =>
    rw [ofFactors, List.foldlM_append] at h
    obtain ⟨before, hbefore, h⟩ := Checked.bind_eq_ok h
    obtain ⟨after, hafter, h⟩ := Checked.bind_eq_ok h
    cases h
    obtain ⟨new, rfl, hnew⟩ := insert_eq_ok hafter
    rw [Table.get?_insert] at hb
    split at hb
    next =>
      cases hb
      unfold Buffer.appendFactor at hnew
      obtain ⟨_, -, hnew⟩ := Checked.bind_eq_ok hnew
      dsimp only at hnew
      split at hnew
      next =>
        cases hnew
        exact ⟨rfl, rfl⟩
      next =>
        obtain ⟨_, -, hnew⟩ := Checked.bind_eq_ok hnew
        obtain ⟨_, -, hnew⟩ := Checked.bind_eq_ok hnew
        cases hnew
        exact ⟨rfl, rfl⟩
      next => cases hnew
    next => exact ih hbefore hb

omit [FactorFamily C] in
/-- A group is told by its members. -/
theorem Bucket.stack_eq (h : Bucket k ms b) (h' : Bucket k ms b') :
    b.content = b'.content ∧ b.stack = b'.stack := by
  obtain ⟨rows, F, hcontent, hstack, hrows, hF⟩ := h
  obtain ⟨rows', F', hcontent', hstack', hrows', hF'⟩ := h'
  obtain rfl : rows = rows' := by
    clear hF hF'
    induction hrows generalizing rows' with
    | nil => cases hrows'; rfl
    | cons hr _ ih =>
      cases hrows' with
      | cons hr' hrows' => rw [Option.some.inj (hr.symm.trans hr'), ih _ hrows']
  obtain rfl := Option.some.inj (hF.symm.trans hF')
  exact ⟨hcontent.trans hcontent'.symm, hstack.trans hstack'.symm⟩

/-- Graphs of factors have the same group where they have the same members. -/
theorem get?_eq_of_members (h : ofFactors fs = .ok graph) (h' : ofFactors fs' = .ok graph')
    (hk : members k fs = members k fs') :
    graph.buffers.get? (.group k) = graph'.buffers.get? (.group k) := by
  have hholds := holds_of_ofFactors h
  have hholds' := holds_of_ofFactors h'
  rcases eq_or_ne (members k fs) [] with hnil | hne
  · rw [Table.get?_eq_none_iff.2 fun hmem => hholds.mem_keys_iff.1 hmem hnil,
      Table.get?_eq_none_iff.2 fun hmem => hholds'.mem_keys_iff.1 hmem (hk ▸ hnil)]
  · obtain ⟨b, hb, hbucket⟩ := hholds.bucket k hne
    obtain ⟨b', hb', hbucket'⟩ := hholds'.bucket k (hk ▸ hne)
    obtain ⟨hcontent, hstack⟩ := hbucket.stack_eq (hk ▸ hbucket')
    obtain ⟨hplace, hserial⟩ := fresh_of_ofFactors h hb
    obtain ⟨hplace', hserial'⟩ := fresh_of_ofFactors h' hb'
    rw [hb, hb']
    refine congrArg some ?_
    cases b
    cases b'
    simp_all

omit [FactorFamily C] in
/-- The factors of a group as rows: each is a member, with its arrays in the widest kinds. -/
theorem Bucket.rows (h : Bucket k ms b)
    (hindex : ∀ f ∈ ms, ∀ g, f.stored? = some g → ∀ a ∈ g.handles, a.index.kind = .int)
    (hleaves : ∀ f ∈ ms, ∀ g, f.stored? = some g → g.leaves ≠ []) :
    ∃ F, b.factors = .ok F ∧ F.rows = .ok ((List.range ms.length).map F.row) ∧
      ∀ i (hi : i < ms.length), ∃ g, (ms[i]).stored? = some g ∧ g.Widens (F.row i) := by
  obtain ⟨rows, F, hcontent, hstack, hrows, hF⟩ := h
  have hlength : ms.length = rows.length := hrows.length_eq
  have hstored : ∀ i (hi : i < rows.length), (ms[i]).stored? = some rows[i] := fun i hi =>
    hrows.get (hlength ▸ hi) hi
  have hint : ∀ r ∈ rows, ∀ a ∈ r.handles, a.index.kind = .int := by
    intro r hr
    obtain ⟨i, hi, rfl⟩ := List.getElem_of_mem hr
    exact hindex _ (List.getElem_mem _) _ (hstored i hi)
  have harrays : ∀ r ∈ rows, r.leaves ≠ [] := by
    intro r hr
    obtain ⟨i, hi, rfl⟩ := List.getElem_of_mem hr
    exact hleaves _ (List.getElem_mem _) _ (hstored i hi)
  refine ⟨F, by rw [Buffer.factors, hcontent, hstack], ?_, fun i hi => ?_⟩
  · rw [Factor.rows_stack? hF (Factor.leaves_stack? hF harrays), hlength]
  · have hi' : i < rows.length := hlength ▸ hi
    exact ⟨_, hstored i hi', Factor.widens_row hF hint hi'⟩

/-! ## Places -/

omit [FactorFamily C] in
/-- The row of factor `j` of a list in the group `k`. -/
def place (k : GroupKey C) (fs : List (FactorLiteral C α)) (j : Nat) : Nat :=
  (members k (fs.take j)).length

omit [FactorFamily C] in
theorem place_append {k : GroupKey C} {j : Nat} (hj : j ≤ fs.length) (f : FactorLiteral C α) :
    place k (fs ++ [f]) j = place k fs j := by
  rw [place, List.take_append_of_le_length hj, place]

omit [FactorFamily C] in
/-- The factors of a group, numbered by their rows, are those of the list that belong to it. -/
theorem zipIdx_members (k : GroupKey C) (fs : List (FactorLiteral C α)) : (members k fs).zipIdx =
    (fs.zipIdx.filter fun p => GroupKey.ofItems p.1 = k).map fun p => (p.1, place k fs p.2) := by
  induction fs using List.reverseRecOn with
  | nil => rfl
  | append_singleton fs f ih =>
    have hold : ((fs.zipIdx.filter fun p => GroupKey.ofItems p.1 = k).map fun p =>
        (p.1, place k (fs ++ [f]) p.2)) =
        (fs.zipIdx.filter fun p => GroupKey.ofItems p.1 = k).map fun p => (p.1, place k fs p.2) := by
      refine List.map_congr_left fun p hp => ?_
      have hlt : p.2 < fs.length := (List.mem_zipIdx' (List.mem_filter.1 hp).1).1
      rw [place_append hlt.le]
    have hlast : place k (fs ++ [f]) fs.length = (members k fs).length := by
      rw [place, List.take_left' rfl]
    rw [members_append, List.zipIdx_append, List.zipIdx_append, List.filter_append, List.map_append,
      hold, ← ih]
    by_cases hf : GroupKey.ofItems f = k <;> simp [hf, hlast]

/-! ## Totals -/

/-- The key of a group for which something holds. -/
def Among (P : GroupKey C → Prop) : Key C → Prop
  | .group k => P k
  | .type _ => False

instance (P : GroupKey C → Prop) [DecidablePred P] : DecidablePred (Among P)
  | .group k => inferInstanceAs (Decidable (P k))
  | .type _ => inferInstanceAs (Decidable False)

section Totals

variable {V M : Type} [AddCommMonoid M] {P : GroupKey C → Prop} [DecidablePred P]
  {t t' : Table (Key C) V} {w w' : Key C × V → M} {weight weight' : FactorLiteral C α × Nat → M}

omit [FactorFamily C] in
/-- What is added up over groups, row by row, is added up over the list. -/
theorem sum_entries (hkeys : ∀ f ∈ fs, P (.ofItems f) → Key.group (.ofItems f) ∈ t.keys)
    (hw : ∀ k v, P k → t.get? (.group k) = some v →
      w (.group k, v) = ((members k fs).zipIdx.map weight).sum) :
    ((t.entries.filter fun e => Among P e.1).map w).sum =
      ((fs.zipIdx.filter fun p => P (.ofItems p.1)).map fun p =>
        weight (p.1, place (.ofItems p.1) fs p.2)).sum := by
  have hlisted : ∀ p ∈ fs.zipIdx, Among P (Key.group (.ofItems p.1)) → Key.group (.ofItems p.1) ∈ t.keys :=
    fun p hp hP => hkeys p.1 (List.fst_mem_of_mem_zipIdx hp) hP
  refine Table.sum_entries_filter (Among P) hlisted fun e he hP => ?_
  obtain ⟨key, v⟩ := e
  cases key with
  | type => cases hP
  | group k =>
    have hkeys : (fun p : FactorLiteral C α × Nat => decide (Key.group (GroupKey.ofItems p.1) = .group k)) =
        fun p => decide (GroupKey.ofItems p.1 = k) := by simp
    rw [hw k v hP (Table.get?_eq_some_iff.2 he), zipIdx_members, List.map_map, hkeys]
    refine congrArg List.sum (List.map_congr_left fun p hp => ?_)
    rw [Function.comp_apply, of_decide_eq_true (List.mem_filter.1 hp).2]

omit [FactorFamily C] in
/-- Totals over two tables agree if they do over the factors of some groups, and the tables have the same
entries for all others. -/
theorem sum_entries_eq (hkeys : ∀ f ∈ fs, P (.ofItems f) → Key.group (.ofItems f) ∈ t.keys)
    (hkeys' : ∀ f ∈ fs', P (.ofItems f) → Key.group (.ofItems f) ∈ t'.keys)
    (hother : ∀ key, ¬ Among P key → t.get? key = t'.get? key)
    (hw : ∀ k v, P k → t.get? (.group k) = some v →
      w (.group k, v) = ((members k fs).zipIdx.map weight).sum)
    (hw' : ∀ k v, P k → t'.get? (.group k) = some v →
      w' (.group k, v) = ((members k fs').zipIdx.map weight').sum)
    (hsame : ∀ e ∈ t.entries, ¬ Among P e.1 → w e = w' e)
    (hsum : ((fs.zipIdx.filter fun p => P (.ofItems p.1)).map fun p =>
        weight (p.1, place (.ofItems p.1) fs p.2)).sum =
      ((fs'.zipIdx.filter fun p => P (.ofItems p.1)).map fun p =>
        weight' (p.1, place (.ofItems p.1) fs' p.2)).sum) :
    (t.entries.map w).sum = (t'.entries.map w').sum :=
  Table.sum_entries_eq (Among P) hother hsame (by
    rw [sum_entries hkeys hw, sum_entries hkeys' hw', hsum])

/-- Every factor has its group. -/
theorem mem_keys_of_ofFactors (h : ofFactors fs = .ok graph) (hf : f ∈ fs) :
    Key.group (.ofItems f) ∈ graph.buffers.keys :=
  (holds_of_ofFactors h).mem_keys_iff.2 (List.ne_nil_of_mem (mem_members hf))

omit [DecidablePred P] in
/-- Graphs of lists with the same factors in some groups have the same buffers for these. -/
theorem get?_eq_of_not_among (h : ofFactors fs = .ok graph) (h' : ofFactors fs' = .ok graph')
    (hmembers : ∀ k, ¬ P k → members k fs = members k fs') {key : Key C} (hkey : ¬ Among P key) :
    graph.buffers.get? key = graph'.buffers.get? key := by
  cases key with
  | group k => exact get?_eq_of_members h h' (hmembers k hkey)
  | type T =>
    rw [Table.get?_eq_none_iff.2 fun hmem => ?_, Table.get?_eq_none_iff.2 fun hmem => ?_]
    · obtain ⟨f, -, hf⟩ := (holds_of_ofFactors h').keys _ hmem
      cases hf
    · obtain ⟨f, -, hf⟩ := (holds_of_ofFactors h).keys _ hmem
      cases hf

end Totals

end FactorGraph

/-! ## Errors -/

section Errors

variable {C α : Type} [FactorFamily C] [LinearOrder α] [ExactScalar α]

/-- The error of a stack is the sum of those of its rows. -/
theorem Factor.amount_stackError {F : FactorStack C α} {rows : List (FactorStack C α)}
    (hrows : F.rows = .ok rows) (read : Reader α) : amount (F.stackError read) =
      (rows.map fun r => amount ((r.values read >>= r.error).map fun e => e.sum.value)).sum := by
  rw [← Checked.amount_mapM]
  unfold stackError stackErrors overRows
  rw [hrows, Checked.ok_bind]
  cases rows.mapM fun r => r.values read >>= r.error with
  | error e => rfl
  | ok es => exact congrArg (fun x : α => (x : WithTop α)) (by
      rw [Scalar.foldl_add_eq, Scalar.zero_eq, zero_add])

namespace FactorGraph

/-- The error of a graph is the sum of those of its groups. -/
theorem amount_error (graph : FactorGraph C α) (read : Reader α) : amount (graph.error read) =
    (graph.buffers.entries.map fun e => amount (e.2.factors >>= fun F => F.stackError read)).sum := by
  have h := Checked.amount_foldlM
    (F := fun e : Key C × Buffer C α => e.2.factors >>= fun F => F.stackError read)
    (f := fun total e => do return total + (← (← Buffer.factors e.2).stackError read))
    (fun total e => by simp only [bind_assoc]; rfl) graph.buffers.entries Scalar.zero
  refine h.trans ?_
  rw [Scalar.zero_eq]
  exact zero_add _

/-- So is that of the factors that have residuals. -/
theorem amount_residualError (graph : FactorGraph C α) (read : Reader α) :
    amount (graph.residualError read) = (graph.buffers.entries.map fun e =>
      if e.2.hasResiduals then amount (e.2.factors >>= fun F => F.stackError read) else 0).sum := by
  have h := Checked.amount_foldlM
    (F := fun e : Key C × Buffer C α =>
      if e.2.hasResiduals then e.2.factors >>= fun F => F.stackError read else .ok 0)
    (f := fun total e => do
      if Buffer.hasResiduals e.2 then return total + (← (← Buffer.factors e.2).stackError read)
      else return total)
    (fun total e => by
      split
      · simp only [bind_assoc]
        rfl
      · exact congrArg Except.ok (add_zero total).symm) graph.buffers.entries Scalar.zero
  refine h.trans ?_
  rw [Scalar.zero_eq]
  refine (zero_add _).trans (congrArg List.sum (List.map_congr_left fun e _ => ?_))
  split <;> rfl

end FactorGraph

end Errors

end LeastSquares
