import LeastSquares.Proofs.Factor.Scatter
import LeastSquares.Proofs.Graph.Gauge
import LeastSquares.Proofs.Graph.Switched
import LeastSquares.Proofs.Graph.Total

/-!
# Graphs in another order

The graph of some factors in another order has the same groups, and in each the same factors in another order.
So it has the same error, and if each handle names one variable, it has the same gradient.
-/

namespace LeastSquares

open Checked (Matches)

namespace Factor

variable {C α : Type} [DecidableEq C] [FactorFamily C] [LinearOrder α] [ExactScalar α] {s : Store C α}
  {L : Layout C} {fs fs' : List (FactorLiteral C α)} {rows rows' : List (FactorStack C α)} {F F' : FactorStack C α}

omit [FactorFamily C] [LinearOrder α] [ExactScalar α] in
/-- The rows of a stack of factors that name single variables name single variables, too. -/
theorem single_of_stack? [Scalar α] (h : stack? rows = some F) (hsingle : ∀ r ∈ rows, r.Single) {i : Nat}
    (hi : i < rows.length) : (F.row i).Single := by
  have hindex : ∀ r ∈ rows, ∀ a ∈ r.handles, a.index.kind = .int := by
    intro r hr a ha
    obtain ⟨t, ht, -⟩ := hsingle r hr a ha
    rw [ht]
    rfl
  intro a ha
  rw [(widens_row h hindex hi).handles] at ha
  exact hsingle _ (List.getElem_mem hi) a ha

namespace Stacked

theorem perm_stored (h : Stacked s fs rows F) (h' : Stacked s fs' rows' F') (hperm : fs.Perm fs') :
    rows.Perm rows' :=
  List.rel_perm_imp (r := fun (f : FactorLiteral C α) g => f.stored? = some g)
    (fun _ _ _ hg hg' => Option.some.inj (hg.symm.trans hg')) h.stored h'.stored hperm

/-- Factors in another order are the same rows in another order. -/
theorem matches_rows (h : Stacked s fs rows F) (h' : Stacked s fs' rows' F') (hperm : fs.Perm fs') :
    Matches List.Perm F.rows F'.rows := by
  rw [h.rows_eq, h'.rows_eq, h.length_eq, h'.length_eq]
  exact perm_rows (h.perm_stored h' hperm) h.stack h'.stack

theorem single_stored (h : Stacked s fs rows F) (hsingle : ∀ f ∈ fs, ∀ a ∈ f.handles, a.Single) :
    ∀ r ∈ rows, r.Single := by
  intro r hr a ha
  obtain ⟨i, hi, rfl⟩ := List.getElem_of_mem hr
  obtain ⟨k, hk, rfl⟩ := List.getElem_of_mem ha
  have hi' : i < fs.length := h.length_eq.symm ▸ hi
  have hhandles := handles_of_stored? (h.stored_row hi' hi)
  have hk' : k < (fs[i]).handles.length := hhandles.length_eq.symm ▸ hk
  obtain ⟨t, ht, hshape⟩ := hsingle _ (List.getElem_mem hi') _ (List.getElem_mem hk')
  exact ⟨t, Option.some.inj ((hhandles.get hk' hk).2.symm.trans ht), hshape⟩

theorem single_row (h : Stacked s fs rows F) (hsingle : ∀ f ∈ fs, ∀ a ∈ f.handles, a.Single) {i : Nat}
    (hi : i < fs.length) : (F.row i).Single :=
  single_of_stack? h.stack (h.single_stored hsingle) (h.length_eq ▸ hi)

end Stacked

/-! ## Gradients -/

/-- Factors of one frame contribute vectors of the same sizes to variables of the same types. -/
theorem exists_delivers {k : FactorClass C} (hk : k.Batched α) {read : Reader α} {rs : List (FactorStack C α)}
    (hkind : ∀ r ∈ rs, r.kind = k) (hframes : ∀ r ∈ rs, r.frame = F.frame) (hsingle : ∀ r ∈ rs, r.Single) :
    ∃ types, ∀ r ∈ rs, ∀ row, r.contribution read = .ok row → List.Forall₂ Delivers types row := by
  by_cases hsome : ∃ r ∈ rs, ∃ row, r.contribution read = .ok row
  case neg => exact ⟨[], fun r hr row hrow => absurd ⟨r, hr, row, hrow⟩ hsome⟩
  obtain ⟨r, hr, row, hrow⟩ := hsome
  obtain ⟨xs, part, ws, vs, -, hpart, -, -⟩ := contribution_eq_ok hrow
  refine ⟨part.types.zip part.tangentDims, fun r' hr' row' hrow' => ?_⟩
  obtain ⟨xs', part', ws', vs', -, hpart', hvs', rfl⟩ := contribution_eq_ok hrow'
  obtain ⟨htypes, -⟩ := hk.component (hkind r hr) ((hframes r hr).trans (hframes r' hr').symm) hpart hpart'
  obtain ⟨-, hhandles⟩ := hk.component (hkind r' hr') rfl hpart' hpart'
  rw [tangentDims, ← htypes]
  refine delivers_zip (fun a ha => hsingle r' hr' a (hhandles a ha)) ?_
  rw [types, List.map_map, List.forall₂_map_left_iff]
  exact forall₂_errorGradient hvs'

theorem Stacked.agree_stackGradient (h : Stacked s fs rows F) (h' : Stacked s fs' rows' F')
    (hperm : fs.Perm fs') (hsingle : ∀ f ∈ fs, ∀ a ∈ f.handles, a.Single) :
    Vectors.Agree L (F.stackGradient s.bulk) (F'.stackGradient s.bulk) := by
  have hmatches := h.matches_rows h' hperm
  rw [h.rows_eq, h'.rows_eq] at hmatches
  have hrow : ∀ r ∈ (List.range fs.length).map F.row, r.kind = F.kind ∧ r.frame = F.frame ∧ r.Single := by
    intro r hr
    obtain ⟨i, hi, rfl⟩ := List.mem_map.1 hr
    exact ⟨rfl, frame_map .., h.single_row hsingle (List.mem_range.1 hi)⟩
  obtain ⟨types, htypes⟩ := exists_delivers (F := F) h.batched (fun r hr => (hrow r hr).1)
    (fun r hr => (hrow r hr).2.1) fun r hr => (hrow r hr).2.2
  exact (agree_of_rows hmatches htypes).congr (stackGradient_eq h.rows_eq) (stackGradient_eq h'.rows_eq)

end Factor

namespace FactorGraph

variable {C α : Type} [DecidableEq C] [FactorFamily C] [LinearOrder α] [ExactScalar α] {s : Store C α}
  {fs fs' : List (FactorLiteral C α)} {graph graph' : FactorGraph C α} {k : GroupKey C} {b b' : Buffer C α}

omit [FactorFamily C] [LinearOrder α] [ExactScalar α] in
theorem members_perm [Scalar α] (hperm : fs.Perm fs') (k : GroupKey C) : (members k fs).Perm (members k fs') :=
  hperm.filter _

theorem Alone.perm (h : Alone s fs) (hperm : fs.Perm fs') : Alone s fs' :=
  ⟨fun f hf => h.evaluates f (hperm.mem_iff.2 hf), fun f hf => h.batched f (hperm.mem_iff.2 hf)⟩

omit [FactorFamily C] [LinearOrder α] [ExactScalar α] in
theorem Holds.mem_keys_perm [Scalar α] (h : Holds fs graph) (h' : Holds fs' graph') (hperm : fs.Perm fs')
    (key : Key C) : key ∈ graph.buffers.keys ↔ key ∈ graph'.buffers.keys := by
  cases key with
  | group k =>
    rw [h.mem_keys_iff, h'.mem_keys_iff, not_iff_not]
    have hmembers := members_perm hperm k
    exact ⟨fun hnil => (hnil ▸ hmembers).nil_eq.symm, fun hnil => (hnil ▸ hmembers).eq_nil⟩
  | type T =>
    constructor <;> intro hkey
    · obtain ⟨_, -, hgroup⟩ := h.keys _ hkey
      cases hgroup
    · obtain ⟨_, -, hgroup⟩ := h'.keys _ hkey
      cases hgroup

/-- Both graphs have a stack of the factors of a group, in the order of each. -/
theorem Holds.stacked_perm (h : Holds fs graph) (h' : Holds fs' graph') (hperm : fs.Perm fs') (halone : Alone s fs)
    {key : Key C} (hb : graph.buffers.get? key = some b) (hb' : graph'.buffers.get? key = some b') :
    ∃ k rows F rows' F', key = .group k ∧ b.factors = .ok F ∧ b'.factors = .ok F' ∧
      b.hasResiduals = F.kind.hasResidual ∧ b'.hasResiduals = b.hasResiduals ∧
      Factor.Stacked s (members k fs) rows F ∧ Factor.Stacked s (members k fs') rows' F' := by
  obtain ⟨k, rfl, hbucket⟩ := h.bucket_of_get? hb
  obtain ⟨_, hkey, hbucket'⟩ := h'.bucket_of_get? hb'
  cases hkey
  obtain ⟨rows, F, hcontent, -, hF, hkind, hstacked⟩ :=
    hbucket.stacked (fun f => key_of_mem_members) (halone.members k)
  obtain ⟨rows', F', hcontent', -, hF', hkind', hstacked'⟩ :=
    hbucket'.stacked (fun f => key_of_mem_members) ((halone.perm hperm).members k)
  refine ⟨k, rows, F, rows', F', rfl, hF, hF', ?_, ?_, hstacked, hstacked'⟩
  · rw [Buffer.hasResiduals, hcontent]
  · rw [Buffer.hasResiduals, Buffer.hasResiduals, hcontent, hcontent', hkind, hkind']

/-- A graph in another order has the same gradient, if each handle names one variable. -/
theorem Holds.gradient_perm (h : Holds fs graph) (h' : Holds fs' graph') (hperm : fs.Perm fs')
    (halone : Alone s fs) (hs : s.Typed) (hsingle : ∀ f ∈ fs, ∀ a ∈ f.handles, a.Single) :
    Matches (fun v w => v.equal w = .ok true) (graph.gradient s) (graph'.gradient s) := by
  rw [gradient_eq, gradient_eq]
  cases hzeros : s.tangentZeros with
  | error e => trivial
  | ok zeros =>
    have hfills := hs.fills_tangentZeros hzeros
    have hagree : Vectors.Agree s.tangents
        (fun v => graph.buffers.entries.foldlM (fun out e => gradientStep s e.2 out) v)
        (fun v => graph'.buffers.entries.foldlM (fun out e => gradientStep s e.2 out) v) := by
      refine Vectors.agree_tables (h.mem_keys_perm h' hperm) fun key b b' hb hb' => ?_
      obtain ⟨k, rows, F, rows', F', rfl, hF, hF', -, hresiduals, hstacked, hstacked'⟩ :=
        h.stacked_perm h' hperm halone hb hb'
      have hmembers : ∀ f ∈ members k fs, ∀ a ∈ f.handles, a.Single := fun f hf =>
        hsingle f (List.mem_filter.1 hf).1
      simp only [gradientStep, hresiduals, hF, hF', Checked.ok_bind]
      split
      · exact hstacked.agree_stackGradient hstacked' (members_perm hperm k) hmembers
      · exact ⟨0, Vectors.adds_zero fun v hv => ⟨v, rfl, hv, rfl⟩, Vectors.adds_zero fun v hv => ⟨v, rfl, hv, rfl⟩⟩
    exact hagree.matches_equal hfills

end FactorGraph

end LeastSquares
