import LeastSquares.Proofs.Array.Growth
import LeastSquares.Proofs.Value.Stack

/-!
# Stacks that grow and change

A stack of values of one form takes one more value of the form as its last row, or in the place of a
row, and keeps its other rows.
-/

namespace LeastSquares

namespace Tree

variable {β γ δ ε : Type}

mutual

theorem zip?_map_right (f : β → δ → Option ε) (g : γ → δ) :
    (s : Tree β) → (t : Tree γ) → s.zip? f (t.map g) = s.zip? (fun b c => f b (g c)) t
  | leaf _, leaf _ | leaf _, absent | leaf _, node .. => rfl
  | absent, leaf _ | absent, absent | absent, node .. => rfl
  | node _ _, leaf _ | node _ _, absent => rfl
  | node l cs, node l' ds => by
    show (if l = l' then (zip?.all f cs (map.all g ds)).map (node l) else none) = _
    rw [zip?_map_right_all f g cs ds]
    rfl

theorem zip?_map_right_all (f : β → δ → Option ε) (g : γ → δ) :
    (cs : List (Tree β)) → (ds : List (Tree γ)) →
      zip?.all f cs (map.all g ds) = zip?.all (fun b c => f b (g c)) cs ds
  | [], [] | [], _ :: _ | _ :: _, [] => rfl
  | c :: cs, d :: ds => by
    rw [map.all, zip?.all, zip?.all, zip?_map_right f g c d, zip?_map_right_all f g cs ds]

end

section

variable {f : β → δ → Option ε} {g : Tree γ → Option δ} {h : γ → Option δ}

mutual

/-- Where the second tree has leaves under the leaves of the first, what meets them is what the leaves
stand for. -/
theorem graft?_of_traverse (hleaf : ∀ c, g (leaf c) = h c) :
    (s : Tree β) → {t : Tree γ} → {u : Tree δ} → t.traverse h = some u → u.skeleton = s.skeleton →
      s.graft? (fun b part => do f b (← g part)) t = s.zip? f u
  | leaf b, t, u => by
    intro ht hskeleton
    obtain ⟨d, rfl⟩ := eq_leaf_of_skeleton hskeleton
    cases t with
    | leaf c =>
      obtain ⟨d', hd, hleaf'⟩ : ∃ d', h c = some d' ∧ leaf d' = leaf d := by
        simpa [traverse, Option.bind_eq_some_iff] using ht
      obtain rfl : d' = d := by injection hleaf'
      simp [graft?, zip?, hleaf, hd]
    | absent => cases ht
    | node l cs => simp [traverse, Option.bind_eq_some_iff] at ht
  | absent, t, u => by
    intro ht hskeleton
    cases u with
    | leaf | node => cases hskeleton
    | absent =>
      cases t with
      | leaf c =>
        simp [traverse, Option.bind_eq_some_iff] at ht
      | absent => rfl
      | node l cs =>
        simp [traverse, Option.bind_eq_some_iff] at ht
  | node l cs, t, u => by
    intro ht hskeleton
    cases t with
    | leaf c =>
      obtain ⟨d, -, rfl⟩ : ∃ d, h c = some d ∧ leaf d = u := by
        simpa [traverse, Option.bind_eq_some_iff] using ht
      cases hskeleton
    | absent =>
      cases ht
      cases hskeleton
    | node l' ds =>
      obtain ⟨us, hus, rfl⟩ : ∃ us, traverse.all h ds = some us ∧ node l' us = u := by
        simpa [traverse, Option.bind_eq_some_iff] using ht
      rw [skeleton_node, skeleton_node] at hskeleton
      injection hskeleton with hl hchildren
      simp only [graft?, zip?, hl, if_true]
      rw [graft?_all_of_traverse hleaf cs hus hchildren]

theorem graft?_all_of_traverse (hleaf : ∀ c, g (leaf c) = h c) :
    (cs : List (Tree β)) → {ds : List (Tree γ)} → {us : List (Tree δ)} →
      traverse.all h ds = some us → us.map skeleton = cs.map skeleton →
      graft?.all (fun b part => do f b (← g part)) cs ds = zip?.all f cs us
  | [], ds, us => by
    intro hds hskeleton
    obtain rfl : us = [] := by simpa using hskeleton
    cases ds with
    | nil => rfl
    | cons d ds => simp [traverse.all, Option.bind_eq_some_iff] at hds
  | c :: cs, ds, us => by
    intro hds hskeleton
    cases ds with
    | nil =>
      obtain rfl : [] = us := by simpa [traverse.all] using hds
      cases hskeleton
    | cons d ds =>
      obtain ⟨v, hv, vs, hvs, rfl⟩ : ∃ v, d.traverse h = some v ∧
          ∃ vs, traverse.all h ds = some vs ∧ v :: vs = us := by
        simpa [traverse.all, Option.bind_eq_some_iff] using hds
      rw [List.map_cons, List.map_cons, List.cons.injEq] at hskeleton
      rw [graft?.all, zip?.all, graft?_of_traverse hleaf c hv hskeleton.1,
        graft?_all_of_traverse hleaf cs hvs hskeleton.2]

end

end

end Tree

namespace Value

variable {α : Type} {v w y : Value α} {n m : Nat} {form : Tree (Kind × Shape)}

theorem skeleton_of_rowsForm (h : v.form = rowsForm n form) : v.skeleton = form.skeleton := by
  rw [← skeleton_form, h, rowsForm, Tree.skeleton_map]

theorem length_leaves_of_form (h : v.form = form) : v.leaves.length = form.leaves.length :=
  Tree.length_leaves_eq (by rw [← skeleton_form, h])

theorem length_leaves_of_rowsForm (h : v.form = rowsForm n form) :
    v.leaves.length = form.leaves.length :=
  Tree.length_leaves_eq (skeleton_of_rowsForm h)

/-- The kind and the shape of a leaf of a stack. -/
theorem leafAt_of_rowsForm (h : v.form = rowsForm n form) {p : Nat} (hp : p < form.leaves.length) :
    (v.leafAt p).kind = (form.leaves[p]).1 ∧ (v.leafAt p).shape = n :: (form.leaves[p]).2 := by
  have hleaves := congrArg (fun t => t.leaves[p]?) h
  have hp' : p < v.leaves.length := (length_leaves_of_rowsForm h).symm ▸ hp
  simp only [leaves_form, rowsForm, Tree.leaves_map, List.getElem?_map,
    List.getElem?_eq_getElem hp, List.getElem?_eq_getElem hp', Option.map_some, Option.some.injEq,
    Prod.mk.injEq] at hleaves
  rwa [leafAt_eq hp']

theorem leafAt_of_form (h : v.form = form) {p : Nat} (hp : p < form.leaves.length) :
    (v.leafAt p).kind = (form.leaves[p]).1 ∧ (v.leafAt p).shape = (form.leaves[p]).2 := by
  subst h
  have hp' : p < v.leaves.length := length_leaves_of_form rfl ▸ hp
  simp [leaves_form, leafAt_eq hp']

theorem rowsForm_of_leafAt (hskeleton : v.skeleton = form.skeleton)
    (h : ∀ p (hp : p < form.leaves.length), (v.leafAt p).kind = (form.leaves[p]).1 ∧
      (v.leafAt p).shape = n :: (form.leaves[p]).2) : v.form = rowsForm n form := by
  have hlength := Tree.length_leaves_eq hskeleton
  refine Tree.map_eq_map_iff.2 ⟨hskeleton, List.ext_getElem (by simp [hlength]) fun p hp _ => ?_⟩
  have hp : p < v.leaves.length := by simpa using hp
  obtain ⟨hkind, hshape⟩ := h p (hlength ▸ hp)
  rw [leafAt_eq hp] at hkind hshape
  simp [hkind, hshape]

/-- A stack met leaf by leaf by a value of the form of its rows. -/
theorem zip?_rows (op : Block α → Block α → Option (Block α))
    {P : Block α → Block α → Block α → Prop}
    (hop : ∀ {a b : Block α} {s : Shape}, b.kind = a.kind → a.shape = n :: s → b.shape = s →
      ∃ u, op a b = some u ∧ u.kind = a.kind ∧ u.shape = m :: s ∧ P a b u)
    (hv : v.form = rowsForm n form) (hy : y.form = form) :
    ∃ w : Value α, Tree.zip? op v y = some w ∧ w.form = rowsForm m form ∧
      ∀ p, p < form.leaves.length → P (v.leafAt p) (y.leafAt p) (w.leafAt p) := by
  have hvlength := length_leaves_of_rowsForm hv
  have hylength := length_leaves_of_form hy
  have hskeleton : y.skeleton = v.skeleton := by
    rw [skeleton_of_rowsForm hv, ← skeleton_form, hy]
  have hleaf : ∀ p (hp : p < form.leaves.length), ∃ u, op (v.leafAt p) (y.leafAt p) = some u ∧
      u.kind = (form.leaves[p]).1 ∧ u.shape = m :: (form.leaves[p]).2 ∧
      P (v.leafAt p) (y.leafAt p) u := by
    intro p hp
    obtain ⟨hakind, hashape⟩ := leafAt_of_rowsForm hv hp
    obtain ⟨hbkind, hbshape⟩ := leafAt_of_form hy hp
    obtain ⟨u, hu, hkind, hshape, hP⟩ := hop (hbkind.trans hakind.symm) hashape hbshape
    exact ⟨u, hu, hkind.trans hakind, hshape, hP⟩
  obtain ⟨w, hw⟩ : ∃ w : Value α, Tree.zip? op v y = some w := Tree.zip?_ok v hskeleton fun pair hpair => by
    obtain ⟨p, hp, rfl⟩ := List.getElem_of_mem hpair
    have hp : p < v.leaves.length ∧ p < y.leaves.length := by simpa using hp
    obtain ⟨u, hu, -⟩ := hleaf p (hvlength ▸ hp.1)
    rw [leafAt_eq hp.1, leafAt_eq hp.2] at hu
    exact ⟨u, by simpa using hu⟩
  obtain ⟨-, hwskeleton, hleaves⟩ := Tree.zip?_spec v hw
  have hwlength : w.leaves.length = form.leaves.length :=
    (Tree.length_leaves_eq hwskeleton).trans hvlength
  have hspec : ∀ p (hp : p < form.leaves.length), (w.leafAt p).kind = (form.leaves[p]).1 ∧
      (w.leafAt p).shape = m :: (form.leaves[p]).2 ∧
      P (v.leafAt p) (y.leafAt p) (w.leafAt p) := by
    intro p hp
    obtain ⟨u, hu, hspec⟩ := hleaf p hp
    have hget := hleaves.get (i := p) (by simpa [hvlength, hylength] using hp) (hwlength ▸ hp)
    have hget : op (v.leafAt p) (y.leafAt p) = some (w.leafAt p) := by
      rw [leafAt_eq (hvlength ▸ hp), leafAt_eq (hylength ▸ hp), leafAt_eq (hwlength ▸ hp)]
      simpa using hget
    obtain rfl := Option.some.inj (hu.symm.trans hget)
    exact hspec
  exact ⟨w, hw, rowsForm_of_leafAt (hwskeleton.trans (skeleton_of_rowsForm hv)) fun p hp =>
    ⟨(hspec p hp).1, (hspec p hp).2.1⟩, fun p hp => (hspec p hp).2.2⟩

variable [Scalar α]

theorem row_eq_of_leafAt {l : Nat} (hw : w.form = rowsForm m form) (hy : y.form = form)
    (h : ∀ p, p < form.leaves.length → (w.leafAt p).row l = y.leafAt p) : w.row l = y := by
  have hwlength := length_leaves_of_rowsForm hw
  have hylength := length_leaves_of_form hy
  refine Tree.eq_of_leaves _ _ ?_ ?_
  · rw [row, Tree.skeleton_map, skeleton_of_rowsForm hw, ← skeleton_form, hy]
  · rw [row, Tree.leaves_map]
    refine List.ext_getElem (by simp [hwlength, hylength]) fun p hp hp' => ?_
    have hrow := h p (hylength ▸ hp')
    rw [leafAt_eq (by simpa using hp), leafAt_eq hp'] at hrow
    rw [List.getElem_map, hrow]

theorem leafAt_row (v : Value α) (i : Nat) {p : Nat} (hp : p < v.leaves.length) :
    (v.row i).leafAt p = (v.leafAt p).row i := by
  have hp' : p < (v.row i).leaves.length := by
    rw [row, Tree.leaves_map, List.length_map]
    exact hp
  rw [leafAt_eq hp', leafAt_eq hp]
  simp [row, Tree.leaves_map]

/-- The same row of two stacks of one form. -/
theorem row_eq_row {i : Nat} (hv : v.form = rowsForm n form) (hw : w.form = rowsForm m form)
    (h : ∀ p, p < form.leaves.length → (w.leafAt p).row i = (v.leafAt p).row i) :
    w.row i = v.row i := by
  refine row_eq_of_leafAt hw (form_row hv i) fun p hp => ?_
  rw [h p hp, leafAt_row _ _ ((length_leaves_of_rowsForm hv).symm ▸ hp)]

/-! ## Growing -/

/-- A value as the only row of a stack. -/
theorem lifted_rows (hy : y.form = form) :
    Value.form (Tree.map Block.lifted y) = rowsForm 1 form ∧
      Value.row (Tree.map Block.lifted y) 0 = y := by
  subst hy
  constructor
  · rw [Value.form, Value.form, rowsForm, Tree.map_map, Tree.map_map]
    exact congrArg (Tree.map · y) (funext fun b => by cases b <;> rfl)
  · rw [row, Tree.map_map]
    exact (congrArg (Tree.map · y) (funext Block.row_lifted)).trans (Tree.map_id y)

theorem append_rows (hv : v.form = rowsForm n form) (hy : y.form = form) :
    ∃ w : Value α, Tree.zip? Block.append? v (Tree.map Block.lifted y) = some w ∧
      w.form = rowsForm (n + 1) form ∧ (∀ i, i < n → w.row i = v.row i) ∧ w.row n = y := by
  obtain ⟨w, hw, hform, hrows⟩ := zip?_rows (m := n + 1) (fun a b => Block.append? a b.lifted)
    (P := fun a b u => (∀ i, i < n → u.row i = a.row i) ∧ u.row n = b) Block.append?_rows hv hy
  exact ⟨w, by rw [Tree.zip?_map_right, hw], hform,
    fun i hi => row_eq_row hv hform fun p hp => (hrows p hp).1 i hi,
    row_eq_of_leafAt hform hy fun p hp => (hrows p hp).2⟩

/-! ## Changing -/

theorem put_rows {index : Tensor Int} {place : Nat} (hv : v.form = rowsForm n form)
    (hy : y.form = form) (hindex : index.shape = []) (hentry : index.entry 0 = place)
    (hplace : place < n) :
    ∃ w : Value α, Tree.zip? (fun leaf r => Block.put? leaf (.ints index) r) v y = some w ∧
      w.form = rowsForm n form ∧ w.row place = y ∧
      ∀ i, i < n → i ≠ place → w.row i = v.row i := by
  have htarget : target n (index.entry 0) = some place := by
    rw [hentry]
    exact Access.locate_of_lt hplace
  obtain ⟨w, hw, hform, hrows⟩ := zip?_rows (m := n) (fun leaf r => leaf.put? (.ints index) r)
    (P := fun a b u => (place < n → u.row place = b) ∧ ∀ i, i < n → i ≠ place → u.row i = a.row i)
    (fun hkind ha hb => Block.put?_rows hkind ha hb hindex htarget) hv hy
  exact ⟨w, hw, hform, row_eq_of_leafAt hform hy fun p hp => (hrows p hp).1 hplace,
    fun i hi hne => row_eq_row hv hform fun p hp => (hrows p hp).2 i hi hne⟩

end Value

end LeastSquares
