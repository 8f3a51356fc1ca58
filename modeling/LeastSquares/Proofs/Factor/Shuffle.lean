import LeastSquares.Proofs.Buffer.Sum
import LeastSquares.Proofs.Factor.Growth

/-!
# Stacks in another order

Factors that are stacked in another order become the same rows in another order: the kinds that a stack
brings its arrays to do not depend on the order.
-/

namespace LeastSquares

open Checked (Matches)

/-- Results of a run over a list in another order are the same, in that order. -/
theorem Checked.matches_mapM_perm {β γ : Type} {f : β → Checked γ} {l l' : List β} (h : l.Perm l') :
    Matches (fun ys ys' => (l.zip ys).Perm (l'.zip ys')) (l.mapM f) (l'.mapM f) := by
  have hsucceeds : ∀ {l l' : List β}, l.Perm l' → (∃ ys, l.mapM f = .ok ys) → ∃ ys, l'.mapM f = .ok ys := by
    rintro l l' h ⟨ys, hys⟩
    have hall : ∀ x ∈ l', ∃ y, f x = .ok y ∧ True := by
      intro x hx
      obtain ⟨i, hi, rfl⟩ := List.getElem_of_mem (h.mem_iff.2 hx)
      have hspec := Checked.forall₂_of_mapM hys
      exact ⟨_, hspec.get hi (hspec.length_eq ▸ hi), trivial⟩
    obtain ⟨ys', hys', -⟩ := Checked.mapM_forall₂ (P := fun _ _ => True) hall
    exact ⟨ys', hys'⟩
  refine Checked.matches_of_iff ⟨hsucceeds h, hsucceeds h.symm⟩ fun ys ys' hys hys' => ?_
  have hzip : ∀ {l : List β} {ys : List γ}, List.Forall₂ (fun x y => f x = .ok y) l ys →
      List.Forall₂ (fun x p => p.1 = x ∧ f x = .ok p.2) l (l.zip ys) := by
    intro l ys h
    induction h with
    | nil => exact .nil
    | cons hy _ ih => exact .cons ⟨rfl, hy⟩ ih
  refine List.rel_perm_imp (r := fun x (p : β × γ) => p.1 = x ∧ f x = .ok p.2) ?_
    (hzip (Checked.forall₂_of_mapM hys)) (hzip (Checked.forall₂_of_mapM hys')) h
  intro x p q ⟨hp, hy⟩ ⟨hq, hz⟩
  exact Prod.ext (hp.trans hq.symm) (Except.ok.inj (hy.symm.trans hz))

theorem Checked.matches_perm {β γ : Type} {f : β → Checked γ} {l l' : List β} (h : l.Perm l') :
    Matches List.Perm (l.mapM f) (l'.mapM f) :=
  (Checked.matches_mapM_perm h).mono fun ys ys' hys hys' hperm => by
    have hsecond := hperm.map Prod.snd
    rwa [List.map_snd_zip (Checked.forall₂_of_mapM hys).length_eq.ge,
      List.map_snd_zip (Checked.forall₂_of_mapM hys').length_eq.ge] at hsecond

namespace Block

variable {α : Type} [Scalar α] {bs bs' : List (Block α)}

omit [Scalar α] in
theorem widest_perm (h : bs.Perm bs') : widest bs = widest bs' :=
  h.foldl_eq' (fun _ _ _ _ k => Kind.join_right_comm k ..) _

theorem exists_stack?_perm (h : bs.Perm bs') {u : Block α} (hu : stack? bs = some u) :
    ∃ u', stack? bs' = some u' := by
  obtain ⟨s, hne, hshape⟩ := shape_eq_of_stack? hu
  obtain ⟨u', hu', -⟩ := stack?_widest (fun hnil => hne (hnil ▸ h).eq_nil) fun b hb => hshape b (h.mem_iff.2 hb)
  exact ⟨u', hu'⟩

end Block

namespace Factor

variable {C α : Type} [DecidableEq C] [Scalar α] {fs fs' : List (FactorStack C α)} {F F' : FactorStack C α}

omit [DecidableEq C] in
/-- The factor with the leaf in each place in the kind for that place. -/
structure InKinds (kinds : Nat → Kind) (g g' : FactorStack C α) : Prop where
  frame : g'.frame = g.frame
  leaf : ∀ p, p < g.leaves.length → g'.leafAt p = (g.leafAt p).cast (kinds p)

omit [DecidableEq C] in
theorem InKinds.unique {kinds : Nat → Kind} {g g' g'' : FactorStack C α} (h : InKinds kinds g g')
    (h' : InKinds kinds g g'') : g' = g'' := by
  have hframe : g'.frame = g''.frame := h.frame.trans h'.frame.symm
  refine eq_of_leaves hframe (List.ext_getElem (length_leaves_eq hframe) fun p hp hp' => ?_)
  have hpg : p < g.leaves.length := length_leaves_eq h.frame ▸ hp
  rw [← leafAt_eq hp, ← leafAt_eq hp', h.leaf p hpg, h'.leaf p hpg]

/-- The kinds that a stack brings its arrays to. -/
def stackKinds (fs : List (FactorStack C α)) (p : Nat) : Kind := Block.widest (fs.map (·.leafAt p))

theorem inKinds_row (h : stack? fs = some F) {i : Nat} (hi : i < fs.length) :
    InKinds (stackKinds fs) fs[i] (F.row i) := by
  have hframe := (stack?_spec h).2.1 _ (List.getElem_mem hi)
  refine ⟨(frame_map ..).trans hframe.symm, fun p hp => ?_⟩
  have hpF : p < F.leaves.length := length_leaves_eq hframe ▸ hp
  have hpr : p < (F.row i).leaves.length := by rwa [row, leaves_map, List.length_map]
  rw [stackKinds, ← (leafAt_stack? h hi hpF).2.2, leafAt_eq hpr, leafAt_eq hpF]
  simp only [row, leaves_map, List.getElem_map]

/-- The rows of a stack, in the order of the factors. -/
theorem forall₂_inKinds (h : stack? fs = some F) :
    List.Forall₂ (InKinds (stackKinds fs)) fs ((List.range fs.length).map F.row) :=
  List.forall₂_iff_get.2 ⟨by simp, fun i hi _ => by simpa using inKinds_row h hi⟩

/-- Stacked in another order, factors become the same rows in another order. -/
theorem perm_rows (hperm : fs.Perm fs') (h : stack? fs = some F) (h' : stack? fs' = some F') :
    ((List.range fs.length).map F.row).Perm ((List.range fs'.length).map F'.row) := by
  have hkinds : stackKinds fs = stackKinds fs' := funext fun p => Block.widest_perm (hperm.map _)
  exact List.rel_perm_imp (r := InKinds (stackKinds fs)) (fun _ _ _ => InKinds.unique) (forall₂_inKinds h) (hkinds ▸ forall₂_inKinds h') hperm

theorem exists_stack?_perm (hperm : fs.Perm fs') (h : stack? fs = some F) : ∃ F', stack? fs' = some F' := by
  obtain ⟨hne, hframes, hleaves⟩ := stack?_spec h
  exact exists_stack?_of_leaves (fun hnil => hne (hnil ▸ hperm).eq_nil)
    (fun f hf => hframes f (hperm.mem_iff.2 hf)) fun p hp => Block.exists_stack?_perm (hperm.map _) (hleaves p hp)

end Factor

end LeastSquares
