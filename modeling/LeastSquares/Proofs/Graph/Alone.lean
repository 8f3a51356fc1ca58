import LeastSquares.Proofs.Factor.Batched
import LeastSquares.Proofs.Graph.Chosen
import LeastSquares.Proofs.Graph.Handles
import LeastSquares.Proofs.Graph.Listed

/-!
# Factors by themselves

A factor that can be evaluated by itself, at the values that its own handles name, comes to the same
error as a row of a stack, and to the same numbers in its residual.
-/

namespace LeastSquares

open Checked (amount)

/-! ## Reading -/

theorem Tensor.take?_clamped {β : Type} [Inhabited β] {access : Access} {t u : Tensor β} {index : Tensor Int}
    (h : t.take? access index = some u) : t.take? .clamped index = some u := by
  have hlocate : ∀ {n : Nat} {i : Int} {place : Nat}, access.locate n i = some place →
      Access.clamped.locate n i = some place := by
    intro n i place hplace
    unfold Access.locate at hplace ⊢
    cases access <;> simp at hplace ⊢ <;> omega
  have hmapM : ∀ {n : Nat} {is : List Int} {places : List Nat}, is.mapM (access.locate n) = some places →
      is.mapM (Access.clamped.locate n) = some places := by
    intro n is
    induction is with
    | nil => exact fun h => h
    | cons i is ih =>
      intro places h
      obtain ⟨place, hplace, h⟩ := Option.bind_eq_some_iff.1 (List.mapM_cons.symm.trans h)
      obtain ⟨rest, hrest, h⟩ := Option.bind_eq_some_iff.1 h
      rw [List.mapM_cons, hlocate hplace, ih hrest]
      exact h
  unfold take? at h ⊢
  split at h
  next => cases h
  next n tail hshape =>
    obtain ⟨places, hplaces, h⟩ := Option.bind_eq_some_iff.1 h
    rw [Array.mapM_eq_mapM_toList] at hplaces ⊢
    obtain ⟨list, hlist, rfl⟩ := Option.map_eq_some_iff.1 hplaces
    simp only [hmapM hlist]
    exact h

theorem Block.take?_clamped {α : Type} [Scalar α] {access : Access} {b index u : Block α}
    (h : b.take? access index = some u) : b.take? .clamped index = some u := by
  obtain ⟨i, hi, h⟩ := Option.bind_eq_some_iff.1 h
  unfold take?
  rw [hi]
  cases b with
  | bools | ints | reals =>
    obtain ⟨t, ht, rfl⟩ := Option.map_eq_some_iff.1 h
    exact congrArg (Option.map _) (Tensor.take?_clamped ht)

namespace Store

variable {C α : Type} [DecidableEq C] [Scalar α] {s : Store C α}

/-- Values of the type have no arrays, and are read whatever the index is. -/
def Unindexed (s : Store C α) (T : VariableType) : Prop :=
  ∀ index index' : Block α, s.bulk (Handle.inStack ⟨T, index⟩) = s.bulk (Handle.inStack ⟨T, index'⟩)

/-- What is read at a handle is read there for a stack. The index is a whole number, unless there is nothing
to index. -/
theorem bulk_of_read {a : Handle (Item α)} {x : Found α} (h : s.read a = .ok x) {b : Block α}
    (hb : a.index.block? = some b) : s.bulk (Handle.inStack ⟨a.type, b⟩) = .ok x.clamped ∧
      ((∃ t, b = .ints t) ∨ s.Unindexed a.type) := by
  obtain ⟨v, o, hcontains, hstack, ho, hv⟩ := read_eq_ok h
  have hbulk : ∀ index, s.bulk (Handle.inStack ⟨a.type, index⟩) =
      fitting (v.traverse (·.take? .clamped index)) >>= fun w => .ok ⟨w, .clamped⟩ := by
    intro index
    rw [bulk_inStack, hcontains, taken_values hstack]
    cases v.traverse (·.take? .clamped index) <;> rfl
  cases hleaves : v.leaves with
  | nil =>
    have hsame : ∀ f g : Block α → Option (Block α), v.traverse f = v.traverse g := fun f g =>
      Tree.traverse_congr v fun b hb => by rw [hleaves] at hb; cases hb
    refine ⟨?_, .inr fun index index' => ?_⟩
    · rw [hbulk, hsame _ _, hv]
      rfl
    · rw [hbulk, hbulk, hsame]
  | cons leaf rest =>
    have htaken := (Tree.traverse_spec v hv).2
    rw [hleaves] at htaken
    obtain ⟨u, us, hu, -, -⟩ := List.forall₂_cons_left_iff.1 htaken
    obtain ⟨index, rfl, htake⟩ := Option.bind_eq_some_iff.1 hu
    obtain rfl : index = b := Option.some.inj ((Residence.block?_of_places ho).symm.trans hb)
    obtain ⟨i, hi, -⟩ := Option.bind_eq_some_iff.1 htake
    refine ⟨?_, .inl ?_⟩
    · have hclamped : v.traverse (·.take? .clamped index) = some x.value := by
        rw [← hv]
        refine Tree.traverse_congr v fun leaf hleaf => ?_
        obtain ⟨k, hk, rfl⟩ := List.getElem_of_mem hleaf
        have hspec := (Tree.traverse_spec v hv).2
        have htake := hspec.get hk (hspec.length_eq ▸ hk)
        rw [Option.bind_some] at htake ⊢
        exact (Block.take?_clamped htake).trans htake.symm
      rw [hbulk, hclamped]
      rfl
    · cases index with
      | ints t => exact ⟨t, rfl⟩
      | bools | reals => cases hi

/-- The shapes of what is read are told by the shape of the index. -/
theorem shape_bulk {T : VariableType} {b b' : Block α} (hb : b.shape = b'.shape) {x x' : Found α}
    (h : s.bulk (Handle.inStack ⟨T, b⟩) = .ok x) (h' : s.bulk (Handle.inStack ⟨T, b'⟩) = .ok x') :
    x.value.map Block.shape = x'.value.map Block.shape := by
  rw [bulk_inStack] at h h'
  obtain ⟨_, -, h⟩ := Checked.bind_eq_ok h
  obtain ⟨_, -, h'⟩ := Checked.bind_eq_ok h'
  obtain ⟨stack, htaken, hfound⟩ := Checked.bind_eq_ok h
  obtain ⟨stack', htaken', hfound'⟩ := Checked.bind_eq_ok h'
  cases hstack : (s.buffer (.type T)).stack with
  | none =>
    unfold taken Buffer.get at htaken
    simp only [hstack] at htaken
    cases htaken
  | some stored =>
    cases stored with
    | factors f =>
      unfold taken Buffer.get at htaken
      simp only [hstack] at htaken
      obtain ⟨g, -, htaken⟩ := Checked.bind_eq_ok htaken
      cases htaken
      cases hfound
    | values v =>
      rw [taken_values hstack] at htaken htaken'
      obtain ⟨w, hw, htaken⟩ := Checked.bind_eq_ok htaken
      obtain ⟨w', hw', htaken'⟩ := Checked.bind_eq_ok htaken'
      cases htaken
      cases htaken'
      cases hfound
      cases hfound'
      obtain ⟨hskeleton, hleaves⟩ := Tree.traverse_spec v (fitting_eq_ok hw)
      obtain ⟨hskeleton', hleaves'⟩ := Tree.traverse_spec v (fitting_eq_ok hw')
      refine Tree.map_eq_map_iff.2 ⟨hskeleton.trans hskeleton'.symm, ?_⟩
      refine List.ext_getElem (by simp [← hleaves.length_eq, ← hleaves'.length_eq]) fun k hk hk' => ?_
      rw [List.length_map] at hk hk'
      have hv : k < v.leaves.length := hleaves.length_eq ▸ hk
      rw [List.getElem_map, List.getElem_map]
      exact (Block.shape_take? (hleaves.get hv hk)).trans
        ((congrArg (· ++ _) hb).trans (Block.shape_take? (hleaves'.get hv hk')).symm)

end Store

/-! ## Rows -/

namespace Factor

section Rows

variable {C α : Type} [DecidableEq C] [Scalar α] {s : Store C α} {fs : List (FactorLiteral C α)}
  {f : FactorLiteral C α} {g : FactorStack C α} {rows : List (FactorStack C α)} {F : FactorStack C α}

omit [DecidableEq C] [Scalar α] in
/-- A factor that is stored can be computed with, and has the same fields there. -/
theorem ready?_of_stored? (h : f.stored? = some g) : f.ready? = some ⟨g.kind, f.handles, g.fields⟩ := by
  obtain ⟨handles, -, h⟩ := Option.bind_eq_some_iff.1 h
  obtain ⟨fields, hfields, h⟩ := Option.bind_eq_some_iff.1 h
  cases h
  have hself : (f.handles.mapM fun a => some (⟨a.type, a.index⟩ : Handle (Item α))) = some f.handles := by
    induction f.handles with
    | nil => rfl
    | cons a l ih =>
      rw [List.mapM_cons, ih]
      rfl
  unfold ready? traverse
  exact Option.bind_eq_some_iff.2 ⟨f.handles, hself, Option.bind_eq_some_iff.2 ⟨fields, hfields, rfl⟩⟩

/-- What a factor reads by a handle of its own, it reads by the place that this has among the leaves. -/
theorem bulk_leafAt_of_read (hg : f.stored? = some g) (hframe : g.frame = F.frame) {k : Nat} (hk : k < F.handles.length)
    (hkf : k < f.handles.length) {x : Found α} (hx : s.read f.handles[k] = .ok x) :
    s.bulk (Handle.inStack ⟨(F.handles[k]).type, g.leafAt k⟩) = .ok x.clamped ∧
      ((g.leafAt k).kind = .int ∨ s.Unindexed (F.handles[k]).type) := by
  have hkg : k < g.handles.length := (length_handles_eq hframe).symm ▸ hk
  obtain ⟨htype, hblock⟩ := (handles_of_stored? hg).get hkf hkg
  simp only [List.get_eq_getElem] at htype hblock
  have hbulk := Store.bulk_of_read hx hblock
  rw [← htype, type_eq_of_frame hframe hkg hk] at hbulk
  rw [leafAt_index _ hkg]
  refine ⟨hbulk.1, hbulk.2.imp ?_ id⟩
  rintro ⟨t, ht⟩
  rw [ht]
  rfl

/-- What the factors read by their own handles, they read in a stack. -/
theorem values_row_of_read (hstored : List.Forall₂ (fun f g => f.stored? = some g) fs rows)
    (hF : stack? rows = some F) (hread : ∀ f ∈ fs, ∃ xs, f.handles.mapM s.read = .ok xs) {i : Nat}
    (hi : i < fs.length) {xs : List (Found α)} (hxs : (fs[i]).handles.mapM s.read = .ok xs) :
    (F.row i).values s.bulk = .ok (xs.map Found.clamped) := by
  obtain ⟨hne, hframes, -⟩ := stack?_spec hF
  have hlength := hstored.length_eq
  have hframe : ∀ j (hj : j < rows.length), (rows[j]).frame = F.frame := fun j hj => hframes _ (List.getElem_mem hj)
  have hcell : ∀ j (hj : j < fs.length) (hj' : j < rows.length), (fs[j]).stored? = some rows[j] := fun j hj hj' =>
    hstored.get hj hj'
  have hcounts : ∀ j (hj : j < fs.length), (fs[j]).handles.length = F.handles.length := by
    intro j hj
    have hj' : j < rows.length := hlength ▸ hj
    rw [(handles_of_stored? (hcell j hj hj')).length_eq]
    exact length_handles_eq (hframe j hj')
  have hi' : i < rows.length := hlength ▸ hi
  have hxs := Checked.forall₂_of_mapM hxs
  refine Checked.mapM_of_forall₂ ?_
  rw [List.forall₂_map_right_iff]
  refine List.forall₂_iff_get.2 ⟨?_, fun k hk hk' => ?_⟩
  · rw [← hxs.length_eq, hcounts i hi]
    simp [row, map]
  · have hkF : k < F.handles.length := by simpa [row, map] using hk
    have hkp : k < F.leaves.length := by
      rw [leaves, List.length_append, List.length_map]
      omega
    have hrow : ((F.row i).handles.get ⟨k, hk⟩) = ⟨(F.handles[k]).type, (F.leafAt k).row i⟩ := by
      rw [leafAt_index F hkF]
      simp [row, map]
    have hki : k < (fs[i]).handles.length := (hcounts i hi).symm ▸ hkF
    obtain ⟨hbulk, -⟩ := bulk_leafAt_of_read (hcell i hi hi') (hframe i hi') hkF hki (hxs.get hki hk')
    rw [hrow, (leafAt_stack? hF hi' hkp).2.2, ← hbulk]
    -- the indices of a slot are cast to the widest of their kinds, which is none of theirs only where nothing is indexed
    by_cases hunindexed : s.Unindexed (F.handles[k]).type
    · exact hunindexed _ _
    · have hints : ∀ b ∈ rows.map (·.leafAt k), b.kind = .int := by
        intro b hb
        obtain ⟨r, hr, rfl⟩ := List.mem_map.1 hb
        obtain ⟨j, hj', rfl⟩ := List.getElem_of_mem hr
        have hj : j < fs.length := hlength ▸ hj'
        have hkj : k < (fs[j]).handles.length := (hcounts j hj).symm ▸ hkF
        obtain ⟨ys, hys⟩ := hread _ (List.getElem_mem hj)
        have hys := Checked.forall₂_of_mapM hys
        have hslot := bulk_leafAt_of_read (hcell j hj hj') (hframe j hj') hkF hkj (hys.get hkj (hys.length_eq ▸ hkj))
        exact hslot.2.resolve_right hunindexed
      have hkind : ((rows[i]).leafAt k).kind = .int := hints _ (List.mem_map_of_mem (List.getElem_mem hi'))
      rw [Block.widest_eq (by simpa using hne) hints, ← hkind, Block.cast_self]

/-- A row of a stack is the factor in wider kinds. -/
theorem wider_row (hF : stack? rows = some F) {i : Nat} (hi : i < rows.length) : (rows[i]).Wider (F.row i) := by
  have hframe := (stack?_spec hF).2.1 _ (List.getElem_mem hi)
  have hrow : (F.row i).frame = (rows[i]).frame := (frame_map ..).trans hframe.symm
  refine ⟨congrArg (·.1) hrow, congrArg (·.2.1) hrow, Tree.alike_all_iff.1 ?_⟩
  refine (Tree.alike_all_iff_leaves _).2 ⟨(congrArg (·.2.2) hrow).symm, ?_⟩
  have hleaves := leaves_row hF hi
  rw [leaves_eq, leaves_eq] at hleaves
  have hdrop := List.forall₂_drop_append _ _ _ hleaves
  rw [List.length_map, length_handles_eq hrow, ← List.length_map (f := fun a => a.index), List.drop_left] at hdrop
  refine hdrop.imp fun b b' hb => ?_
  obtain ⟨k, hk, rfl⟩ := hb
  exact Block.wider_cast hk

end Rows

/-! ## Errors -/

section Errors

variable {C α : Type} [DecidableEq C] [FactorFamily C] [LinearOrder α] [ExactScalar α] {s : Store C α}
  {f : FactorLiteral C α} {g : FactorStack C α} {x : α}

/-- The error of a factor by itself, at the values that its handles name: one number. -/
def errorAt (s : Store C α) (f : FactorLiteral C α) : Checked α := do
  let ready ← fitting f.ready?
  let e ← ready.error (← f.handles.mapM s.read)
  if e.shape = [] then return e.value else misfit

omit [DecidableEq C] [FactorFamily C] in
theorem Wider.of_stored? (hg : f.stored? = some g) {r : FactorStack C α} (h : g.Wider r) :
    (⟨g.kind, f.handles, g.fields⟩ : Factor C (Item α) (Block α)).Wider r :=
  ⟨h.kind, h.types.trans (congrArg (·.2.1) (stored?_spec hg).1), h.fields⟩

theorem errorAt_eq_ok (h : f.errorAt s = .ok x) (hg : f.stored? = some g) : ∃ xs e,
    f.handles.mapM s.read = .ok xs ∧
      (⟨g.kind, f.handles, g.fields⟩ : Factor C (Item α) (Block α)).error xs = .ok e ∧ e.numbers = [x] := by
  unfold errorAt at h
  rw [ready?_of_stored? hg, fitting_some, Checked.ok_bind] at h
  obtain ⟨xs, hxs, h⟩ := Checked.bind_eq_ok h
  obtain ⟨e, he, hnumber⟩ := Checked.bind_eq_ok h
  split at hnumber
  next hshape =>
    cases hnumber
    exact ⟨xs, e, hxs, he, Block.numbers_of_shape hshape⟩
  next => cases hnumber

omit [FactorFamily C] [LinearOrder α] [ExactScalar α] in
/-- The values that the rows of a stack read have arrays of the same shapes. -/
theorem shapes_values [Scalar α] {F : FactorStack C α} {i j : Nat} {xs ys : List (Found α)}
    (hxs : (F.row i).values s.bulk = .ok xs) (hys : (F.row j).values s.bulk = .ok ys) :
    xs.map (fun x => x.value.map Block.shape) = ys.map (fun y => y.value.map Block.shape) := by
  have hvalues : ∀ i, (F.row i).values s.bulk =
      F.handles.mapM fun a => s.bulk (Handle.inStack ⟨a.type, a.index.row i⟩) := fun i => List.mapM_map ..
  rw [hvalues] at hxs hys
  generalize F.handles = handles at hxs hys
  induction handles generalizing xs ys with
  | nil =>
    cases hxs
    cases hys
    rfl
  | cons a l ih =>
    rw [List.mapM_cons] at hxs hys
    obtain ⟨x, hx, hxs⟩ := Checked.bind_eq_ok hxs
    obtain ⟨xs', hxs', hxs⟩ := Checked.bind_eq_ok hxs
    obtain ⟨y, hy, hys⟩ := Checked.bind_eq_ok hys
    obtain ⟨ys', hys', hys⟩ := Checked.bind_eq_ok hys
    cases hxs
    cases hys
    rw [List.map_cons, List.map_cons, ih hxs' hys',
      Store.shape_bulk ((Block.shape_row_eq ..).trans (Block.shape_row_eq ..).symm) hx hy]

variable {fs : List (FactorLiteral C α)} {rows : List (FactorStack C α)} {F : FactorStack C α} {i : Nat}

/-- Factors that stand in a stack, and that can be evaluated by themselves. -/
structure Stacked (s : Store C α) (fs : List (FactorLiteral C α)) (rows : List (FactorStack C α))
    (F : FactorStack C α) : Prop where
  stored : List.Forall₂ (fun f g => f.stored? = some g) fs rows
  stack : stack? rows = some F
  batched : F.kind.Batched α
  evaluates : ∀ f ∈ fs, ∃ x, f.errorAt s = .ok x

namespace Stacked

variable (h : Stacked s fs rows F)
include h

theorem length_eq : fs.length = rows.length := h.stored.length_eq

theorem stored_row (hi : i < fs.length) (hi' : i < rows.length) : (fs[i]).stored? = some rows[i] :=
  h.stored.get hi hi'

theorem kind_row (hi : i < rows.length) : (rows[i]).kind = F.kind :=
  congrArg (·.1) ((stack?_spec h.stack).2.1 _ (List.getElem_mem hi))

/-- By itself and as a row, a factor has the same values, and in the row its arrays are in wider kinds. -/
theorem row (hi : i < fs.length) : ∃ (own : Factor C (Item α) (Block α)) (xs : List (Found α)) (e : Block α) (x : α),
    own.kind = F.kind ∧ own.Wider (F.row i) ∧ own.error xs = .ok e ∧ (fs[i]).errorAt s = .ok x ∧
      e.numbers = [x] ∧ (F.row i).values s.bulk = .ok (xs.map Found.clamped) := by
  have hi' : i < rows.length := h.length_eq ▸ hi
  have hread : ∀ f ∈ fs, ∃ xs, f.handles.mapM s.read = .ok xs := by
    intro f hf
    obtain ⟨j, hj, rfl⟩ := List.getElem_of_mem hf
    obtain ⟨x, hx⟩ := h.evaluates _ hf
    obtain ⟨xs, -, hxs, -⟩ := errorAt_eq_ok hx (h.stored_row hj (h.length_eq ▸ hj))
    exact ⟨xs, hxs⟩
  obtain ⟨x, hx⟩ := h.evaluates _ (List.getElem_mem hi)
  obtain ⟨xs, e, hxs, he, hnumber⟩ := errorAt_eq_ok hx (h.stored_row hi hi')
  exact ⟨_, xs, e, x, h.kind_row hi', .of_stored? (h.stored_row hi hi') (wider_row h.stack hi'), he, hx, hnumber,
    values_row_of_read h.stored h.stack hread hi hxs⟩

theorem leaves : F.leaves ≠ [] := by
  have hpos : 0 < rows.length := List.length_pos_of_ne_nil (stack?_spec h.stack).1
  have hpos' : 0 < fs.length := h.length_eq ▸ hpos
  obtain ⟨own, xs, e, x, hkind, hwider, he, -⟩ := h.row hpos'
  have hframe : (F.row 0).frame = F.frame := frame_map ..
  have htypes : own.types = F.types := hwider.types.symm.trans (congrArg (·.2.1) hframe)
  have hskeletons : own.fields.map Tree.skeleton = F.fields.map Tree.skeleton :=
    ((Tree.alike_all_iff_leaves _).1 (Tree.alike_all_iff.2 hwider.fields)).1.trans (congrArg (·.2.2) hframe)
  rw [leaves_eq]
  intro hnil
  obtain ⟨hhandles, hfields⟩ := List.append_eq_nil_iff.1 hnil
  obtain hown | hown := h.batched.arrays hkind he
  · have hnone : own.handles.map (·.type) = [] := by
      rw [show own.handles.map (·.type) = F.types from htypes, types, List.map_eq_nil_iff.1 hhandles]
      rfl
    exact hown (List.map_eq_nil_iff.1 hnone)
  · refine hown (List.length_eq_zero_iff.1 ?_)
    rw [Tree.length_leaves_all hskeletons, hfields]
    rfl

/-- A stack has a row for each factor. -/
theorem rows_eq : F.rows = .ok ((List.range fs.length).map F.row) := by
  rw [rows_stack? h.stack h.leaves, h.length_eq]

theorem count_eq : F.count = .ok fs.length := by
  have hrows := rowCount_stack? h.stack h.leaves
  obtain ⟨n, hn, hcount⟩ := Checked.bind_eq_ok hrows
  split at hcount
  next =>
    cases hcount
    rw [hn, h.length_eq]
  next => cases hcount

/-- The error of a stack is the sum of those of the factors by themselves. -/
theorem amount_stackError (whole : ∀ i, Scalar.wrap α i = i) :
    amount (F.stackError s.bulk) = (fs.map fun f => amount (f.errorAt s)).sum := by
  rw [Factor.amount_stackError h.rows_eq, List.map_map]
  refine congrArg List.sum (List.ext_getElem (by simp) fun i hi hi' => ?_)
  rw [List.getElem_map, List.getElem_map, List.getElem_range]
  have hi : i < fs.length := by simpa using hi'
  obtain ⟨own, xs, e, x, hkind, hwider, he, hx, hnumber, hvalues⟩ := h.row hi
  obtain ⟨e', he', hwider'⟩ : ∃ e', (F.row i).error (xs.map Found.clamped) = .ok e' ∧ e.Wider e' :=
    h.batched.steady whole hkind hwider he
  have hsum := (Block.value_sum whole e').2
  rw [hwider'.numbers_eq, hnumber, List.sum_singleton] at hsum
  rw [hx, Function.comp_apply, hvalues, Checked.ok_bind, he']
  exact congrArg (fun x : α => (x : WithTop α)) hsum

/-- If factors have residuals, half the sum of the squares of the numbers in a row is the error of its factor. -/
theorem residual_row (whole : ∀ i, Scalar.wrap α i = i) (hresidual : F.kind.hasResidual = true) (hi : i < fs.length) :
    ∃ values r, (F.row i).values s.bulk = .ok values ∧ (F.row i).residual values = .ok r ∧
      (fs[i]).errorAt s = .ok (Scalar.half * (r.numbers.map (· ^ 2)).sum) := by
  obtain ⟨own, xs, e, x, hkind, hwider, he, hx, hnumber, hvalues⟩ := h.row hi
  rw [error_of_hasResidual (hkind ▸ hresidual)] at he
  obtain ⟨r, hr, he⟩ := Checked.bind_eq_ok he
  obtain ⟨r', hr', hwider'⟩ : ∃ r', (F.row i).residual (xs.map Found.clamped) = .ok r' ∧ r.Wider r' :=
    h.batched.residual hkind hwider hr
  rw [halfSquaredNorm_eq whole, ← hwider'.numbers_eq] at he
  cases he
  have hreal : ∀ y : α, (Block.real y).numbers = [y] := fun y => rfl
  rw [hreal, List.singleton_inj] at hnumber
  exact ⟨_, r', hvalues, hr', by rw [hx, hnumber]⟩

/-- Residuals of a stack have one shape. Half the sum of their squares is the error. -/
theorem residuals (whole : ∀ i, Scalar.wrap α i = i) (hresidual : F.kind.hasResidual = true) : ∃ R : Block α,
    F.stackResiduals s.bulk = .ok R ∧
      amount (F.stackError s.bulk) = (Scalar.half * (R.numbers.map (· ^ 2)).sum : α) ∧
      R.shape.head? = some fs.length := by
  have hpos : 0 < fs.length := h.length_eq ▸ List.length_pos_of_ne_nil (stack?_spec h.stack).1
  have : Nonempty (Block α) := ⟨.int 0⟩
  choose! values r hvalues hr he using fun i (hi : i < fs.length) => h.residual_row whole hresidual hi
  have hover : F.overRows s.bulk residual = .ok ((List.range fs.length).map r) := by
    rw [overRows, h.rows_eq, Checked.ok_bind, List.mapM_map]
    refine Checked.mapM_of_forall₂ ?_
    rw [List.forall₂_map_right_iff, List.forall₂_same]
    intro i hi
    rw [Function.comp_apply, hvalues i (List.mem_range.1 hi), Checked.ok_bind, hr i (List.mem_range.1 hi)]
  have hshape : ∀ b ∈ (List.range fs.length).map r, b.shape = (r 0).shape := by
    intro b hb
    obtain ⟨i, hi, rfl⟩ := List.mem_map.1 hb
    have hi := List.mem_range.1 hi
    exact h.batched.shape (f := F.row 0) (g := F.row i) rfl (shapes_row F 0 i)
      (shapes_values (hvalues 0 hpos) (hvalues i hi)) (hr 0 hpos) (hr i hi)
  obtain ⟨R, hR, -, hRshape, -⟩ := Block.stack?_widest (by simp [hpos.ne']) hshape
  have herrors : fs.mapM (errorAt s) =
      .ok (((List.range fs.length).map r).map fun r => Scalar.half * (r.numbers.map (· ^ 2)).sum) := by
    refine Checked.mapM_of_forall₂ (List.forall₂_iff_get.2 ⟨by simp, fun i hi hi' => ?_⟩)
    simpa using he i hi
  refine ⟨R, ?_, ?_, ?_⟩
  · rw [stackResiduals, hover, Checked.ok_bind, hR]
    rfl
  · rw [h.amount_stackError whole, Checked.sum_amount herrors, List.sum_map_mul_left, Block.numbers_stack? hR]
    simp [List.flatMap, List.map_flatten, List.sum_flatten, Function.comp_def]
  · rw [hRshape, List.head?_cons, List.length_map, List.length_range]

end Stacked

end Errors

end Factor

end LeastSquares
