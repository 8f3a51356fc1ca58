import LeastSquares.Proofs.Buffer.Arithmetic
import LeastSquares.Proofs.Graph.Alone

/-!
# Totals over a list of factors

A graph keeps its factors in stacks, one per group, but its count, its error and the norm of its residuals
are those of the list of factors: each factor counts once, with what it comes to by itself.
-/

namespace LeastSquares

open Checked (amount)

/-- A sum over those elements that have some property. -/
theorem sum_filter {β M : Type} [AddCommMonoid M] (p : β → Bool) (w : β → M) (l : List β) :
    ((l.filter p).map w).sum = (l.map fun x => if p x then w x else 0).sum := by
  induction l with
  | nil => rfl
  | cons x l ih => cases hx : p x <;> simp [hx, ih]

theorem Table.sum_images {K V W M : Type} [AddCommMonoid M] (image : K → V → Option W) (w : K × W → M)
    (entries : List (K × V)) : ((Table.images image entries).map w).sum =
      (entries.map fun e => ((image e.1 e.2).map fun v => w (e.1, v)).getD 0).sum := by
  induction entries with
  | nil => rfl
  | cons e entries ih =>
    rw [List.map_cons, List.sum_cons, ← ih, Table.images, List.filterMap_cons]
    cases image e.1 e.2 with
    | none => exact (zero_add _).symm
    | some v => rfl

/-- The squared norm of vectors is the sum of the squares of their numbers. -/
theorem Buffer.squaredNorm_ofVectors {C α : Type} [DecidableEq C] [FactorFamily C] [LinearOrder α] [ExactScalar α]
    (whole : ∀ i, Scalar.wrap α i = i) (key : Key C) {R : Block α} {n : Nat} (hR : R.shape.head? = some n) :
    ∃ e, (ofVectors key R).squaredNorm = .ok e ∧ e.value = (R.numbers.map (· ^ 2)).sum := by
  obtain ⟨p, hp, hsquares⟩ := Block.mul?_self whole R
  obtain ⟨hshape, hsum⟩ := Block.value_sum whole p
  have hnumeric : p.sum.IsNumeric := by cases p <;> nofun
  obtain ⟨e, he, -, heshape, hnumbers⟩ := Block.combines_add? whole (Block.isNumeric_ints (.scalar 0)) hnumeric hshape.symm
  have hcount : (ofVectors key R).count = .ok n := by
    show fitting R.shape.head? = _
    rw [hR, fitting_some]
  refine ⟨e, ?_, ?_⟩
  · have hcompatible : (ofVectors key R).checkCompatible (ofVectors key R) = .ok () := by
      unfold checkCompatible
      rw [hcount]
      simp [checkContent, checkVectors, ofVectors, of, require]
    show ((ofVectors key R).checkCompatible (ofVectors key R) >>= fun _ => dotLeaves [R] [R]) = _
    rw [hcompatible, Checked.ok_bind]
    show ((fitting (R.mul? R) >>= fun p => fitting ((Block.int 0).add? p.sum)) >>= fun e => .ok e) = _
    rw [hp, fitting_some, Checked.ok_bind, show (Block.int 0).add? p.sum = some e from he]
    rfl
  · rw [Block.numbers_of_shape hshape, Block.numbers_of_shape heshape, hsum, hsquares] at hnumbers
    simpa [Tensor.scalar] using hnumbers

/-- Half of a squared norm is added up over the entries. -/
theorem Vectors.amount_half_squaredNorm {C α : Type} [DecidableEq C] [FactorFamily C] [LinearOrder α] [ExactScalar α]
    (v : Vectors C α) : amount (v.squaredNorm.map (Scalar.half * ·)) =
      (v.buffers.entries.map fun e => amount (e.2.squaredNorm.map fun e => Scalar.half * e.value)).sum := by
  have hhalf : v.squaredNorm.map (Scalar.half * ·) =
      (v.buffers.entries.mapM fun e => (do return (← e.2.squaredNorm).value : Checked α)).map fun ys =>
        (ys.map (Scalar.half * ·)).sum := by
    rw [squaredNorm_eq]
    cases v.buffers.entries.mapM fun e => (do return (← e.2.squaredNorm).value : Checked α) with
    | error e => rfl
    | ok ys =>
      have hscaled := List.sum_map_mul_left ys id (Scalar.half : α)
      rw [List.map_id] at hscaled
      exact congrArg Except.ok hscaled.symm
  rw [hhalf, Checked.amount_mapM]
  refine congrArg List.sum (List.map_congr_left fun e _ => ?_)
  cases e.2.squaredNorm <;> rfl

namespace FactorGraph

section Groups

variable {C α : Type} [DecidableEq C] [FactorFamily C] [Scalar α] {fs : List (FactorLiteral C α)}
  {graph : FactorGraph C α}

omit [FactorFamily C] in
/-- What is added up over the groups of a graph, and in each over its members, is added up over the list. -/
theorem Holds.sum_buffers {M : Type} [AddCommMonoid M] (h : Holds fs graph) {w : Buffer C α → M}
    {weight : FactorLiteral C α → M}
    (hw : ∀ k b, Bucket k (members k fs) b → w b = ((members k fs).map weight).sum) :
    (graph.buffers.entries.map fun e => w e.2).sum = (fs.map weight).sum := by
  let group (f : FactorLiteral C α) : Key C := .group (.ofItems f)
  have hkeys : ∀ f ∈ fs, True → group f ∈ graph.buffers.keys := fun f hf _ =>
    h.mem_keys_iff.2 (List.ne_nil_of_mem (mem_members hf))
  have hgroups : ∀ e ∈ graph.buffers.entries, True →
      w e.2 = ((fs.filter fun f => group f = e.1).map weight).sum := by
    intro e he _
    obtain ⟨key, b⟩ := e
    obtain ⟨k, rfl, hbucket⟩ := h.bucket_of_get? (Table.get?_eq_some_iff.2 he)
    rw [hw k b hbucket]
    simp [group, members]
  have hsum := Table.sum_entries_filter (fun _ => True) hkeys hgroups
  simpa using hsum

end Groups

variable {C α : Type} [DecidableEq C] [FactorFamily C] [LinearOrder α] [ExactScalar α] {s : Store C α}
  {fs : List (FactorLiteral C α)} {graph : FactorGraph C α} {k : GroupKey C} {ms : List (FactorLiteral C α)}
  {b : Buffer C α}

/-- Each factor has an error by itself, and its class can be computed with in stacks. -/
structure Alone (s : Store C α) (fs : List (FactorLiteral C α)) : Prop where
  evaluates : ∀ f ∈ fs, ∃ x, f.errorAt s = .ok x
  batched : ∀ f ∈ fs, f.kind.Batched α

theorem Alone.members (h : Alone s fs) (k : GroupKey C) : Alone s (members k fs) :=
  ⟨fun f hf => h.evaluates f (List.mem_filter.1 hf).1, fun f hf => h.batched f (List.mem_filter.1 hf).1⟩

theorem Alone.exists_errors (h : Alone s fs) {ms : List (FactorLiteral C α)} (hms : ∀ f ∈ ms, f ∈ fs) :
    ∃ xs, ms.mapM (Factor.errorAt s) = .ok xs := by
  obtain ⟨xs, hxs, -⟩ := Checked.mapM_forall₂ (l := ms) (P := fun _ _ => True) fun f hf =>
    (h.evaluates f (hms f hf)).imp fun _ hx => ⟨hx, trivial⟩
  exact ⟨xs, hxs⟩

/-- A group is a stack of factors that have errors by themselves. -/
theorem Bucket.stacked (h : Bucket k ms b) (hms : ∀ f ∈ ms, GroupKey.ofItems f = k) (halone : Alone s ms) :
    ∃ rows F, b.content = some (.factors F.kind) ∧ b.stack = some (.factors F) ∧ b.factors = .ok F ∧
      F.kind = k.kind ∧ Factor.Stacked s ms rows F := by
  obtain ⟨rows, F, hcontent, hstack, hstored, hF⟩ := h
  obtain ⟨hne, hframes, -⟩ := Factor.stack?_spec hF
  have hpos : 0 < rows.length := List.length_pos_of_ne_nil hne
  have hpos' : 0 < ms.length := hstored.length_eq ▸ hpos
  have hfirst : (ms[0]).stored? = some rows[0] := hstored.get hpos' hpos
  have hkind : F.kind = (ms[0]).kind :=
    congrArg (·.1) ((hframes _ (List.getElem_mem hpos)).symm.trans (Factor.stored?_spec hfirst).1)
  have hkey : F.kind = k.kind := hkind.trans (congrArg GroupKey.kind (hms _ (List.getElem_mem hpos')))
  refine ⟨rows, F, by rw [hcontent, hkey], hstack, by rw [Buffer.factors, hcontent, hstack], hkey, hstored, hF, ?_,
    halone.evaluates⟩
  rw [hkind]
  exact halone.batched _ (List.getElem_mem hpos')

/-- The residuals of a group, if it has them. -/
def groupResiduals (read : Reader α) (key : Key C) (b : Buffer C α) : Checked (Option (Buffer C α)) := do
  if b.hasResiduals then return some (.ofVectors key (← (← b.factors).stackResiduals read)) else return none

theorem residuals_eq (graph : FactorGraph C α) (read : Reader α) :
    graph.residuals read = graph.buffers.filterMapM (groupResiduals read) >>= fun t => .ok ⟨t⟩ := rfl

section Totals

variable (h : Holds fs graph) (halone : Alone s fs)
include h halone

/-- A graph has as many factors as the list. -/
theorem Holds.factorCount_eq : graph.factorCount = .ok fs.length := by
  have hfold : amount graph.factorCount = (graph.buffers.entries.map fun e => amount e.2.count).sum := by
    have hsum := Checked.amount_foldlM (F := fun e : Key C × Buffer C α => e.2.count)
      (f := fun n e => do return n + (← Buffer.count e.2)) (fun _ _ => rfl) graph.buffers.entries 0
    exact hsum.trans (zero_add _)
  let one (_ : FactorLiteral C α) : WithTop Nat := ((1 : Nat) : WithTop Nat)
  have hgroup : ∀ k b, Bucket k (members k fs) b → amount b.count = ((members k fs).map one).sum := by
    intro k b hbucket
    obtain ⟨rows, F, -, hstack, -, -, hstacked⟩ := hbucket.stacked (fun f => key_of_mem_members) (halone.members k)
    have hcount : b.count = .ok (members k fs).length := by
      rw [Buffer.count, hstack]
      exact hstacked.count_eq
    rw [hcount]
    simp [one]
  have hsum := h.sum_buffers hgroup
  rw [← Checked.amount_eq_coe, hfold, hsum]
  simp [one]

variable (whole : ∀ i, Scalar.wrap α i = i)
include whole

/-- The error of a graph is the sum of those of the factors by themselves. -/
theorem Holds.amount_error_eq : amount (graph.error s.bulk) = (fs.map fun f => amount (f.errorAt s)).sum := by
  rw [amount_error]
  refine h.sum_buffers (w := fun b => amount (b.factors >>= fun F => F.stackError s.bulk)) fun k b hbucket => ?_
  obtain ⟨rows, F, -, -, hF, -, hstacked⟩ := hbucket.stacked (fun f => key_of_mem_members) (halone.members k)
  rw [hF, Checked.ok_bind, hstacked.amount_stackError whole]

/-- So is that of the factors that have residuals. -/
theorem Holds.amount_residualError_eq : amount (graph.residualError s.bulk) =
    ((fs.filter (·.kind.hasResidual)).map fun f => amount (f.errorAt s)).sum := by
  rw [amount_residualError, sum_filter]
  refine h.sum_buffers (w := fun b => if b.hasResiduals then amount (b.factors >>= fun F => F.stackError s.bulk) else 0)
    fun k b hbucket => ?_
  obtain ⟨rows, F, hcontent, -, hF, hkind, hstacked⟩ := hbucket.stacked (fun f => key_of_mem_members) (halone.members k)
  have hmembers : ∀ f ∈ members k fs, f.kind.hasResidual = b.hasResiduals := by
    intro f hf
    rw [Buffer.hasResiduals, hcontent, hkind, ← key_of_mem_members hf]
    rfl
  rw [hF, Checked.ok_bind, hstacked.amount_stackError whole, ← sum_filter]
  cases hresiduals : b.hasResiduals with
  | false => rw [List.filter_eq_nil_iff.2 fun f hf => by simp [hmembers f hf, hresiduals]]; rfl
  | true => rw [List.filter_eq_self.2 fun f hf => by rw [hmembers f hf, hresiduals]]; rfl

theorem Holds.error_eq : ∃ xs, fs.mapM (Factor.errorAt s) = .ok xs ∧ graph.error s.bulk = .ok xs.sum := by
  obtain ⟨xs, hxs⟩ := halone.exists_errors fun f hf => hf
  exact ⟨xs, hxs, Checked.amount_eq_coe.1 ((h.amount_error_eq halone whole).trans (Checked.sum_amount hxs))⟩

theorem Holds.residualError_eq : ∃ xs, (fs.filter (·.kind.hasResidual)).mapM (Factor.errorAt s) = .ok xs ∧
    graph.residualError s.bulk = .ok xs.sum := by
  obtain ⟨xs, hxs⟩ := halone.exists_errors fun f (hf : f ∈ fs.filter (·.kind.hasResidual)) => (List.mem_filter.1 hf).1
  exact ⟨xs, hxs, Checked.amount_eq_coe.1 ((h.amount_residualError_eq halone whole).trans (Checked.sum_amount hxs))⟩

/-- What a buffer of the graph gives to the residuals, and the share of its squared norm in the error. -/
theorem Holds.groupResiduals_share {key : Key C} (hb : graph.buffers.get? key = some b) : ∃ o,
    groupResiduals s.bulk key b = .ok o ∧
      (o.map fun v => amount (v.squaredNorm.map fun e => Scalar.half * e.value)).getD 0 =
        if b.hasResiduals then amount (b.factors >>= fun F => F.stackError s.bulk) else 0 := by
  obtain ⟨k, rfl, hbucket⟩ := h.bucket_of_get? hb
  obtain ⟨rows, F, hcontent, -, hF, -, hstacked⟩ := hbucket.stacked (fun f => key_of_mem_members) (halone.members k)
  have hkind : b.hasResiduals = F.kind.hasResidual := by rw [Buffer.hasResiduals, hcontent]
  cases hresiduals : b.hasResiduals with
  | false => exact ⟨none, by rw [groupResiduals, hresiduals]; rfl, rfl⟩
  | true =>
    obtain ⟨R, hR, herror, hshape⟩ := hstacked.residuals whole (hkind ▸ hresiduals)
    obtain ⟨e, he, hvalue⟩ := Buffer.squaredNorm_ofVectors whole (.group k) hshape
    refine ⟨some (.ofVectors (.group k) R), ?_, ?_⟩
    · rw [groupResiduals, if_pos hresiduals, hF, Checked.ok_bind, hR]
      rfl
    · rw [Option.map_some, Option.getD_some, he, if_pos rfl, hF, Checked.ok_bind, herror, ← hvalue]
      rfl

/-- The residuals of a graph exist, and half of their squared norm is the error of the factors that have
them. -/
theorem Holds.residuals_norm : ∃ r n, graph.residuals s.bulk = .ok r ∧ r.squaredNorm = .ok n ∧
    graph.residualError s.bulk = .ok (Scalar.half * n) := by
  have hgroup : ∀ e ∈ graph.buffers.entries, ∃ o, groupResiduals s.bulk e.1 e.2 = .ok o ∧
      (o.map fun v => amount (v.squaredNorm.map fun e => Scalar.half * e.value)).getD 0 =
        if e.2.hasResiduals then amount (e.2.factors >>= fun F => F.stackError s.bulk) else 0 := fun e he =>
    h.groupResiduals_share halone whole (Table.get?_eq_some_iff.2 he)
  obtain ⟨u, hu⟩ := Table.exists_filterMapM (f := groupResiduals s.bulk) (t := graph.buffers) fun e he =>
    (hgroup e he).imp fun _ ho => ho.1
  obtain ⟨image, himage, hentries⟩ := Table.exists_images hu
  have hnorm : amount ((⟨u⟩ : Vectors C α).squaredNorm.map (Scalar.half * ·)) = amount (graph.residualError s.bulk) := by
    rw [Vectors.amount_half_squaredNorm, hentries, Table.sum_images, amount_residualError]
    refine congrArg List.sum (List.map_congr_left fun e he => ?_)
    obtain ⟨o, ho, hshare⟩ := hgroup e he
    obtain rfl : image e.1 e.2 = o := Except.ok.inj ((himage e he).symm.trans ho)
    rw [← hshare]
  obtain ⟨xs, -, herror⟩ := h.residualError_eq halone whole
  rw [herror] at hnorm ⊢
  cases hn : (⟨u⟩ : Vectors C α).squaredNorm with
  | error e =>
    rw [hn] at hnorm
    cases hnorm
  | ok n =>
    rw [hn] at hnorm
    exact ⟨⟨u⟩, n, by rw [residuals_eq, hu, Checked.ok_bind], hn, (Checked.amount_eq_coe.1 hnorm).symm⟩

end Totals

end FactorGraph

end LeastSquares
