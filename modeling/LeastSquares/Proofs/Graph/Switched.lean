import LeastSquares.Proofs.Buffer.Moving
import LeastSquares.Proofs.Graph.Settled

/-!
# Graphs of settled factors

A list of factors can be settled if its labels lie in range. The graphs of the two lists have the same groups,
apart from those of relative motions; and in these, the totals of both are taken over the same settled factors.
So both graphs have the same error and the same gradient.
-/

namespace LeastSquares

open Checked (amount Matches)

/-- The group is one of relative motions between variables, given or chosen by labels. -/
def GroupKey.Moves {C : Type} (k : GroupKey C) : Prop :=
  k.kind = .switchingBetween ∨ k.kind = .between ∧ k.types ≠ []

instance {C : Type} [DecidableEq C] : DecidablePred (GroupKey.Moves (C := C)) := fun _ =>
  inferInstanceAs (Decidable (_ ∨ _ ∧ _))

/-- Totals over those elements of two lists that have some property. -/
theorem sum_zipIdx_filter {β γ M : Type} [AddCommMonoid M] {l : List β} {l' : List γ} {p : β → Prop}
    {q : γ → Prop} [DecidablePred p] [DecidablePred q] {w : β × Nat → M} {w' : γ × Nat → M}
    (hlength : l.length = l'.length) (h : ∀ j (hj : j < l.length) (hj' : j < l'.length),
      (p l[j] ↔ q l'[j]) ∧ (p l[j] → w (l[j], j) = w' (l'[j], j))) :
    ((l.zipIdx.filter fun x => p x.1).map w).sum = ((l'.zipIdx.filter fun x => q x.1).map w').sum := by
  have hsum : ∀ {δ : Type} (m : List δ) (P : δ → Prop) [DecidablePred P] (w : δ → M),
      ((m.filter fun x => P x).map w).sum = (m.map fun x => if P x then w x else 0).sum := by
    intro δ m P _ w
    induction m with
    | nil => rfl
    | cons x m ih => by_cases hx : P x <;> simp [hx, ih]
  rw [hsum l.zipIdx (fun x => p x.1) w, hsum l'.zipIdx (fun x => q x.1) w']
  refine congrArg List.sum (List.ext_getElem (by simp [hlength]) fun j hj hj' => ?_)
  have hj : j < l.length := by simpa using hj
  have hj' : j < l'.length := hlength ▸ hj
  obtain ⟨hiff, hw⟩ := h j hj hj'
  by_cases hp : p l[j]
  · simp [hp, hiff.1 hp, hw hp]
  · simp [hp, mt hiff.2 hp]

/-! ## One factor -/

namespace Factor

variable {C α : Type} [DecidableEq C] [LinearOrder α] [ExactScalar α] {s : Store C α}
  {f e : FactorLiteral C α}

/-- What a settled factor is. -/
theorem settled_eq_ok (h : f.settled s = .ok e) : f.kind ≠ .switchingBetween ∧ e = f ∨
    f.kind = .switchingBetween ∧ ∃ start label stop movement noise, f.handles = [start, label, stop] ∧
      e = ⟨.between, [start, stop], [movement, noise]⟩ := by
  unfold settled at h
  split at h
  next hkind =>
    split at h
    next start label stop movements noise hhandles _ =>
      obtain ⟨c, -, h⟩ := Checked.bind_eq_ok h
      obtain ⟨movement, -, h⟩ := Checked.bind_eq_ok h
      exact .inr ⟨hkind, start, label, stop, movement, noise, hhandles, (Except.ok.inj h).symm⟩
    next => cases h
  next hkind => exact .inl ⟨hkind, (Except.ok.inj h).symm⟩

theorem kind_settled (h : f.settled s = .ok e) : e.kind ≠ .switchingBetween := by
  obtain ⟨hkind, rfl⟩ | ⟨-, _, _, _, _, _, -, rfl⟩ := settled_eq_ok h
  · exact hkind
  · simp

theorem handles_settled (h : f.settled s = .ok e) : ∀ a ∈ e.handles, a ∈ f.handles := by
  obtain ⟨-, rfl⟩ | ⟨-, start, label, stop, _, _, hhandles, rfl⟩ := settled_eq_ok h
  · exact fun a ha => ha
  · intro a ha
    have hmem : a ∈ [start, stop] := ha
    rw [hhandles]
    simp at hmem ⊢
    tauto

/-- A settled factor is settled. -/
theorem settledReals_settled (h : f.settled s = .ok e) : e.settledReals s = f.settledReals s := by
  rw [settledReals, settledReals, h, settled_of_ne (kind_settled h)]

theorem moves_settled (h : f.settled s = .ok e) :
    (GroupKey.ofItems f).Moves ↔ (GroupKey.ofItems e).Moves := by
  obtain ⟨-, rfl⟩ | ⟨hkind, start, _, stop, _, _, -, rfl⟩ := settled_eq_ok h
  · exact Iff.rfl
  · exact ⟨fun _ => .inr ⟨rfl, List.cons_ne_nil start.type [stop.type]⟩, fun _ => .inl hkind⟩

theorem eq_of_not_moves (h : f.settled s = .ok e) (hk : ¬ (GroupKey.ofItems f).Moves) : e = f := by
  obtain ⟨-, heq⟩ | ⟨hkind, -⟩ := settled_eq_ok h
  · exact heq
  · exact absurd (.inl hkind) hk

end Factor

/-! ## Lists -/

namespace FactorGraph

section Lists

variable {C α : Type} [DecidableEq C] [LinearOrder α] [ExactScalar α] {s : Store C α}
  {fs fs' : List (FactorLiteral C α)} {f : FactorLiteral C α} {k : GroupKey C}

/-- The factors of a list, settled. -/
def Settled (s : Store C α) (fs fs' : List (FactorLiteral C α)) : Prop :=
  List.Forall₂ (fun f e => f.settled s = .ok e) fs fs'

/-- All handles of the factors are in range, and so are the labels. -/
structure Labelled (s : Store C α) (fs : List (FactorLiteral C α)) : Prop where
  inRange : ∀ f ∈ fs, ∀ a ∈ f.handles, a.InRange s.layout
  labels : ∀ f ∈ fs, f.kind = .switchingBetween → Factor.Labelled s f

theorem Labelled.moves (h : Labelled s fs) (hf : f ∈ fs) (hk : (GroupKey.ofItems f).Moves) :
    f.Moves s := by
  refine ⟨h.inRange f hf, ?_⟩
  obtain hkind | ⟨hkind, htypes⟩ := hk
  · exact .inr (h.labels f hf hkind)
  · refine .inl ⟨hkind, fun hnil => htypes ?_⟩
    rw [GroupKey.ofItems, Factor.types, hnil]
    rfl

theorem Settled.getElem (hfs : Settled s fs fs') {j : Nat} (hj : j < fs.length) (hj' : j < fs'.length) :
    Factor.settled s fs[j] = .ok fs'[j] :=
  hfs.get hj hj'

/-- Settled factors have no labels. -/
theorem Settled.labelled (hfs : Settled s fs fs') (h : Labelled s fs) : Labelled s fs' := by
  have hmember : ∀ e ∈ fs', ∃ f ∈ fs, f.settled s = .ok e := by
    intro e he
    obtain ⟨j, hj, rfl⟩ := List.getElem_of_mem he
    have hj' : j < fs.length := hfs.length_eq ▸ hj
    exact ⟨_, List.getElem_mem hj', hfs.get hj' hj⟩
  refine ⟨fun e he a ha => ?_, fun e he hkind => ?_⟩
  · obtain ⟨f, hf, hsettled⟩ := hmember e he
    exact h.inRange f hf a (Factor.handles_settled hsettled a ha)
  · obtain ⟨f, -, hsettled⟩ := hmember e he
    exact absurd hkind (Factor.kind_settled hsettled)

/-- Other groups have the same factors. -/
theorem Settled.members_eq (hfs : Settled s fs fs') (hk : ¬ k.Moves) :
    members k fs = members k fs' := by
  induction hfs with
  | nil => rfl
  | @cons f e fs fs' hsettled _ ih =>
    rw [members, members, List.filter_cons, List.filter_cons]
    by_cases hf : (GroupKey.ofItems f).Moves
    · have hfk : GroupKey.ofItems f ≠ k := fun h => hk (h ▸ hf)
      have hek : GroupKey.ofItems e ≠ k := fun h => hk (h ▸ (Factor.moves_settled hsettled).1 hf)
      rw [if_neg (by simpa using hfk), if_neg (by simpa using hek)]
      exact ih
    · obtain rfl := Factor.eq_of_not_moves hsettled hf
      split
      · exact congrArg _ ih
      · exact ih

theorem Settled.place_eq (hfs : Settled s fs fs') (hk : ¬ k.Moves) (j : Nat) :
    place k fs j = place k fs' j :=
  congrArg List.length (members_eq (List.forall₂_take j hfs) hk)

theorem Settled.sum_eq {M : Type} [AddCommMonoid M] (hfs : Settled s fs fs')
    (weight weight' : FactorLiteral C α × Nat → M)
    (h : ∀ j (hj : j < fs.length) (hj' : j < fs'.length), (GroupKey.ofItems fs[j]).Moves →
      weight (fs[j], place (.ofItems fs[j]) fs j) = weight' (fs'[j], place (.ofItems fs'[j]) fs' j)) :
    ((fs.zipIdx.filter fun q => (GroupKey.ofItems q.1).Moves).map fun q =>
        weight (q.1, place (.ofItems q.1) fs q.2)).sum =
      ((fs'.zipIdx.filter fun q => (GroupKey.ofItems q.1).Moves).map fun q =>
        weight' (q.1, place (.ofItems q.1) fs' q.2)).sum :=
  sum_zipIdx_filter (p := fun f => (GroupKey.ofItems f).Moves) (q := fun f => (GroupKey.ofItems f).Moves)
    hfs.length_eq fun j hj hj' => ⟨Factor.moves_settled (hfs.get hj hj'), h j hj hj'⟩

end Lists

/-! ## Graphs -/

end FactorGraph

namespace Store.WellFormed

variable {C α : Type} [DecidableEq C] [LinearOrder α] [ExactScalar α] {s : Store C α}

omit [LinearOrder α] [ExactScalar α] in
theorem tangent [Scalar α] (_ : s.WellFormed) : s.tangents.Tangent := fun _ _ => rfl

/-- The zero tangent vectors of a store have an array for each type that has a tangent space. -/
theorem tangentZeros_fills (hs : s.WellFormed) :
    ∃ zeros, s.tangentZeros = .ok zeros ∧ zeros.Fills s.tangents := by
  obtain ⟨zeros, hzeros, -⟩ := hs.tangentZeros
  exact ⟨zeros, hzeros, hs.typed.fills_tangentZeros hzeros⟩

end Store.WellFormed

namespace FactorGraph

section Graphs

variable {C α : Type} [DecidableEq C] [FactorFamily C] [LinearOrder α] [ExactScalar α] {s : Store C α}
  {fs fs' : List (FactorLiteral C α)} {f : FactorLiteral C α} {graph graph' : FactorGraph C α}
  {k : GroupKey C} {b : Buffer C α}

/-- A group of relative motions is a stack of them. -/
theorem Labelled.motions (h : Labelled s fs) (hs : s.WellFormed) (hgraph : ofFactors fs = .ok graph)
    (hk : k.Moves) (hb : graph.buffers.get? (.group k) = some b) :
    b.hasResiduals = true ∧ ∃ F, b.factors = .ok F ∧ F.Motions s (members k fs) := by
  obtain ⟨k', hkey, hbucket⟩ := (holds_of_ofFactors hgraph).bucket_of_get? hb
  obtain rfl := Key.group.inj hkey
  refine hbucket.motions hs ?_ fun f hf => h.moves (List.mem_filter.1 hf).1 ?_
  · obtain hkind | ⟨hkind, -⟩ := hk <;> rw [hkind] <;> rfl
  · rwa [key_of_mem_members hf]

/-- A total over the groups that comes, in a stack of relative motions, to a total over the settled factors
is the same for both graphs. -/
theorem Settled.total_eq {M : Type} [AddCommMonoid M] (hfs : Settled s fs fs') (h : Labelled s fs)
    (hs : s.WellFormed) (hgraph : ofFactors fs = .ok graph) (hgraph' : ofFactors fs' = .ok graph')
    {w : Buffer C α → M} {W : FactorLiteral C α → M}
    (hw : ∀ ms b F, b.hasResiduals = true → b.factors = .ok F → Factor.Motions s ms F →
      w b = (ms.zipIdx.map fun q => W q.1).sum)
    (hW : ∀ f e, f.settled s = .ok e → W e = W f) :
    (graph.buffers.entries.map fun e => w e.2).sum = (graph'.buffers.entries.map fun e => w e.2).sum := by
  have hgroup : ∀ k b, k.Moves → graph.buffers.get? (.group k) = some b →
      w b = ((members k fs).zipIdx.map fun q => W q.1).sum := by
    intro k b hk hb
    obtain ⟨hresiduals, F, hF, hmotions⟩ := h.motions hs hgraph hk hb
    exact hw _ b F hresiduals hF hmotions
  have hgroup' : ∀ k b, k.Moves → graph'.buffers.get? (.group k) = some b →
      w b = ((members k fs').zipIdx.map fun q => W q.1).sum := by
    intro k b hk hb
    obtain ⟨hresiduals, F, hF, hmotions⟩ := (hfs.labelled h).motions hs hgraph' hk hb
    exact hw _ b F hresiduals hF hmotions
  exact sum_entries_eq (fun f hf _ => mem_keys_of_ofFactors hgraph hf)
    (fun f hf _ => mem_keys_of_ofFactors hgraph' hf)
    (fun key hkey => get?_eq_of_not_among hgraph hgraph' (fun k => hfs.members_eq) hkey)
    hgroup hgroup' (fun e _ _ => rfl)
    (hfs.sum_eq (fun q => W q.1) (fun q => W q.1) fun j hj hj' _ => (hW _ _ (hfs.get hj hj')).symm)

theorem settledError_settled {e : FactorLiteral C α} (h : f.settled s = .ok e) :
    Factor.settledError s e = Factor.settledError s f := by
  rw [Factor.settledError, Factor.settledError, Factor.settledReals_settled h]

/-- Both graphs have the same error, and so have their factors with residuals. -/
theorem Settled.error_eq (hfs : Settled s fs fs') (h : Labelled s fs) (hs : s.WellFormed)
    (hgraph : ofFactors fs = .ok graph) (hgraph' : ofFactors fs' = .ok graph') :
    Matches Eq (graph.error s.bulk) (graph'.error s.bulk) ∧
      Matches Eq (graph.residualError s.bulk) (graph'.residualError s.bulk) := by
  simp only [Checked.matches_eq_iff, amount_error, amount_residualError]
  have hgroup : ∀ ms (b : Buffer C α) F, b.factors = .ok F → Factor.Motions s ms F →
      amount (b.factors >>= fun F => F.stackError s.bulk) =
        (ms.zipIdx.map fun q => Factor.settledError s q.1).sum := by
    intro ms b F hF hmotions
    rw [hF, Checked.ok_bind, hmotions.amount_stackError]
  refine ⟨hfs.total_eq h hs hgraph hgraph' (fun ms b F _ => hgroup ms b F) fun f e =>
    settledError_settled, hfs.total_eq h hs hgraph hgraph'
      (w := fun b => if b.hasResiduals then amount (b.factors >>= fun F => F.stackError s.bulk) else 0)
      (fun ms b F hresiduals hF hmotions => ?_) fun f e => settledError_settled⟩
  rw [if_pos hresiduals]
  exact hgroup ms b F hF hmotions

/-! ## Gradients -/

/-- The gradient of a group, added to what is there. -/
def gradientStep (s : Store C α) (b : Buffer C α) (out : Vectors C α) : Checked (Vectors C α) :=
  if b.hasResiduals then b.factors >>= fun F => F.stackGradient s.bulk out else .ok out

theorem exists_adds_gradientStep (s : Store C α) (b : Buffer C α) :
    ∃ d, Vectors.Adds s.tangents (gradientStep s b) d := by
  cases hresiduals : b.hasResiduals with
  | false =>
    refine ⟨0, (Vectors.adds_zero fun v hv => ⟨v, rfl, hv, rfl⟩).congr fun v => ?_⟩
    rw [gradientStep, hresiduals]
    rfl
  | true =>
    obtain ⟨d, hd⟩ := Vectors.exists_adds_of_run (L := s.tangents) b.factors
      (f := fun F v => F.stackGradient s.bulk v) fun F _ => Factor.exists_adds_stackGradient F s.bulk
    refine ⟨d, hd.congr fun v => ?_⟩
    rw [gradientStep, hresiduals, if_pos rfl]

theorem gradient_eq (graph : FactorGraph C α) (s : Store C α) : graph.gradient s =
    s.tangentZeros >>= fun zeros => graph.buffers.entries.foldlM (fun out e => gradientStep s e.2 out) zeros :=
  rfl

theorem settledDeposit_settled {e : FactorLiteral C α} (h : f.settled s = .ok e) :
    Factor.settledDeposit s e = Factor.settledDeposit s f := by
  rw [Factor.settledDeposit, Factor.settledDeposit, Factor.settledReals_settled h]

/-- Both graphs have the same gradient. -/
theorem Settled.gradient_eq (hfs : Settled s fs fs') (h : Labelled s fs) (hs : s.WellFormed)
    (hgraph : ofFactors fs = .ok graph) (hgraph' : ofFactors fs' = .ok graph') :
    Matches (fun v w => v.Fills s.tangents ∧ w.Fills s.tangents ∧
      v.onCells s.tangents = w.onCells s.tangents) (graph.gradient s) (graph'.gradient s) := by
  obtain ⟨zeros, hzeros, hfills⟩ := hs.tangentZeros_fills
  choose D hD using exists_adds_gradientStep s
  have hadds : ∀ graph : FactorGraph C α, Vectors.Adds s.tangents
      (fun v => graph.buffers.entries.foldlM (fun out e => gradientStep s e.2 out) v)
      (graph.buffers.entries.map fun e => D e.2).sum := fun graph =>
    Vectors.Adds.foldlM fun e _ => hD e.2
  have htotal := hfs.total_eq h hs hgraph hgraph' (w := D) (W := Factor.settledDeposit s)
    (fun ms b F hresiduals hF hmotions => by
      refine (hD b).eq ((hmotions.adds_stackGradient hs.tangent).congr fun v => ?_) hfills
      rw [gradientStep, if_pos hresiduals, hF]
      rfl) fun f e => settledDeposit_settled
  rw [FactorGraph.gradient_eq, FactorGraph.gradient_eq, hzeros]
  exact (hadds graph).matches (htotal ▸ hadds graph') hfills

end Graphs

end FactorGraph

end LeastSquares
