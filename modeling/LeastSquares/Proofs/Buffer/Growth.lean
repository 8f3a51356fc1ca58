import LeastSquares.Proofs.Buffer.Store
import LeastSquares.Proofs.Value.Growth

/-!
# Buffers that grow and change

A buffer holds values of one type and of one form as rows. What is appended becomes the last row, what
is put at a single index takes the place of the row there, and a move takes each row along its own row
of the step. This holds whatever the type's own shapes are.
-/

namespace LeastSquares

/-! ## Single handles -/

section

variable {α : Type} [Scalar α]

/-- The place that a single index names. -/
def Item.place? : Item α → Option Nat
  | .int i => i.toNat?
  | .array _ (.ints t) => if t.shape = [] then (t.entry 0).toNat? else none
  | _ => none

/-- The place that a handle to a single value names. -/
def Handle.place? (h : Handle (Item α)) : Option Nat := h.index.place?

theorem Item.places_of_place? {place : Residence} {i : Item α} {index : Block α} {k : Nat}
    (h : place.places i = .ok index) (hk : i.place? = some k) :
    ∃ t : Tensor Int, index = .ints t ∧ t.shape = [] ∧ t.entry 0 = k := by
  cases i with
  | int i =>
    have hi : i = k := Int.mem_toNat?.1 hk
    have hblock : Item.block? (.int i : Item α) = some index := by
      cases place <;> exact fitting_eq_ok h
    rw [block?] at hblock
    split at hblock
    · cases hblock
      exact ⟨.scalar i, rfl, rfl, hi⟩
    · cases hblock
  | array residence b =>
    cases b with
    | ints t =>
      by_cases hshape : t.shape = []
      · have hentry : (t.entry 0).toNat? = some k := by
          rw [place?] at hk
          rwa [if_pos hshape] at hk
        obtain rfl : .ints t = index := by
          cases place <;> cases residence <;> cases h <;> rfl
        exact ⟨t, rfl, hshape, Int.mem_toNat?.1 hentry⟩
      · rw [place?, if_neg hshape] at hk
        cases hk
    | bools | reals => cases hk
  | bool | real | text => cases hk

end

/-! ## Stacks of one form -/

namespace Buffer

variable {C α : Type}

/-- The buffer holds `n` values of a type and of one form, as rows. -/
structure Stacks (b : Buffer C α) (T : VariableType) (v : Value α) (n : Nat)
    (form : Tree (Kind × Shape)) : Prop where
  content : b.content = some (.values T)
  stack : b.stack = some (.values v)
  rows : v.form = Value.rowsForm n form

variable {b b' : Buffer C α} {T : VariableType} {v : Value α} {n : Nat}
  {form : Tree (Kind × Shape)}

theorem Stacks.isEmpty (h : b.Stacks T v n form) : b.isEmpty = false := isEmpty_of_stack h.stack

theorem Stacks.shape_cons (h : b.Stacks T v n form) (arrays : form.leaves ≠ []) :
    ∀ leaf ∈ v.leaves, ∃ s, leaf.shape = n :: s := by
  intro leaf hleaf
  have hhead := (Value.rowCount_eq_ok.1 (Value.rowCount_of_form h.rows arrays)).2 leaf hleaf
  cases hs : leaf.shape with
  | nil => rw [hs] at hhead; cases hhead
  | cons m s =>
    rw [hs] at hhead
    exact ⟨s, by rw [Option.some.inj hhead]⟩

theorem Stacks.count [Scalar α] (h : b.Stacks T v n form) (arrays : form.leaves ≠ []) :
    b.count = .ok n := by
  obtain ⟨hne, hheads⟩ := Value.rowCount_eq_ok.1 (Value.rowCount_of_form h.rows arrays)
  obtain ⟨leaf, rest, hleaves⟩ := List.exists_cons_of_ne_nil hne
  have hhead := hheads leaf (by simp [hleaves])
  simp [Buffer.count, h.stack, Stack.count, hleaves, hhead]

variable [DecidableEq C] [FactorFamily C] [Scalar α] {x : Literal α} {y : Value α}

omit [DecidableEq C] in
theorem Stacks.append (h : b.Stacks T v n form) (hx : x.value? = some y) (hy : y.form = form)
    (hb : b.append x = .ok b') :
    ∃ w, b'.Stacks T w (n + 1) form ∧ (∀ i, i < n → w.row i = v.row i) ∧ w.row n = y := by
  obtain ⟨w, hw, hform, hrows⟩ := Value.append_rows h.rows hy
  unfold Buffer.append at hb
  simp only [hx, fitting_some, Checked.ok_bind, h.stack] at hb
  obtain ⟨_, -, hb⟩ := Checked.bind_eq_ok hb
  rw [hw, fitting_some, Checked.ok_bind] at hb
  cases hb
  exact ⟨w, ⟨h.content, rfl, hform⟩, hrows⟩

omit [DecidableEq C] in
/-- The first value that is stored. -/
theorem append_first (hcontent : b.content = some (.values T)) (hempty : b.stack = none)
    (arrays : form.leaves ≠ []) (hx : x.value? = some y) (hy : y.form = form)
    (hb : b.append x = .ok b') : ∃ w, b'.Stacks T w 1 form ∧ w.row 0 = y := by
  obtain ⟨hform, hrow⟩ := Value.lifted_rows hy
  unfold Buffer.append at hb
  simp only [hx, fitting_some, Checked.ok_bind, hempty] at hb
  split at hb
  next habsent =>
    rw [habsent] at hform
    have hlength := Value.length_leaves_of_rowsForm hform
    exact absurd (List.length_eq_zero_iff.1 hlength.symm) arrays
  next =>
    cases hb
    exact ⟨_, ⟨hcontent, rfl, hform⟩, hrow⟩

omit [DecidableEq C] [FactorFamily C] in
/-- A value of the form is put into all arrays alike. -/
theorem Stacks.replace_eq (h : b.Stacks T v n form) {i : Item α} (hx : x.value? = some y)
    (hy : y.form = form) :
    b.replace i x = (do
      let w ← fitting (Tree.zip? (fun leaf r => do
        Block.put? leaf (← (Residence.device.places i).toOption) r) v y)
      return b.holding (.values w) .device) := by
  have hskeleton : y.skeleton = v.skeleton := by
    rw [Value.skeleton_of_rowsForm h.rows, ← Value.skeleton_form, hy]
  have hgraft := Tree.graft?_of_traverse (g := Literal.block?) (h := Item.block?)
    (f := fun (leaf r : Block α) => do leaf.put? (← (Residence.device.places i).toOption) r)
    (fun _ => by rw [Literal.block?]) v hx hskeleton
  rw [← hgraft]
  unfold Buffer.replace
  simp only [h.stack]
  refine congrArg (fun f => fitting (Tree.graft? f v x) >>= fun w => pure (b.holding (.values w) .device))
    (funext fun leaf => funext fun part => ?_)
  cases (Residence.device.places i).toOption <;> cases Literal.block? part <;> rfl

omit [DecidableEq C] [FactorFamily C] in
/-- A value of the form can be put in the place of any row. -/
theorem Stacks.replace_ok (h : b.Stacks T v n form) {i : Item α} {index : Block α} {k : Nat}
    (hindex : Residence.device.places i = .ok index) (hk : i.place? = some k) (hn : k < n)
    (hx : x.value? = some y) (hy : y.form = form) :
    ∃ b' w, b.replace i x = .ok b' ∧ b'.Stacks T w n form ∧ w.row k = y ∧
      ∀ j, j < n → j ≠ k → w.row j = v.row j := by
  obtain ⟨t, rfl, hshape, hentry⟩ := Item.places_of_place? hindex hk
  obtain ⟨w, hw, hform, hrows⟩ := Value.put_rows h.rows hy hshape hentry hn
  refine ⟨b.holding (.values w) .device, w, ?_, ⟨h.content, rfl, hform⟩, hrows⟩
  rw [h.replace_eq hx hy, hindex]
  exact congrArg (fitting · >>= fun w => pure (b.holding (.values w) .device)) hw

omit [DecidableEq C] [FactorFamily C] in
theorem Stacks.replace (h : b.Stacks T v n form) (arrays : form.leaves ≠ []) {i : Item α} {k : Nat}
    (hk : i.place? = some k) (hn : k < n) (hx : x.value? = some y) (hy : y.form = form)
    (hb : b.replace i x = .ok b') :
    ∃ w, b'.Stacks T w n form ∧ w.row k = y ∧ ∀ j, j < n → j ≠ k → w.row j = v.row j := by
  cases hindex : Residence.device.places i with
  | ok index =>
    obtain ⟨_, w, hreplace, hw⟩ := h.replace_ok hindex hk hn hx hy
    obtain rfl := Except.ok.inj (hreplace.symm.trans hb)
    exact ⟨w, hw⟩
  | error e =>
    -- no leaf could be written, and there is one
    rw [h.replace_eq hx hy, hindex] at hb
    obtain ⟨w, hw, -⟩ := Checked.bind_eq_ok hb
    obtain ⟨-, -, hleaves⟩ := Tree.zip?_spec v (fitting_eq_ok hw)
    obtain ⟨leaf, rest, hvleaves⟩ := List.exists_cons_of_ne_nil (l := v.leaves) fun hnil =>
      arrays (List.length_eq_zero_iff.1 (by rw [← Value.length_leaves_of_rowsForm h.rows, hnil]; rfl))
    obtain ⟨leaf', rest', hyleaves⟩ := List.exists_cons_of_ne_nil (l := y.leaves) fun hnil =>
      arrays (List.length_eq_zero_iff.1 (by rw [← Value.length_leaves_of_form hy, hnil]; rfl))
    rw [hvleaves, hyleaves, List.zip_cons_cons] at hleaves
    obtain ⟨u, -, hu, -⟩ := List.forall₂_cons_left_iff.1 hleaves
    cases hu

omit [DecidableEq C] [FactorFamily C] in
/-- The rows of a buffer that was moved, if those it was moved to have the form again. -/
theorem Stacks.moved (h : b.Stacks T v n form) (arrays : form.leaves ≠ []) (hn : 0 < n)
    {step : Buffer C α} (hb : Store.movedBuffer (.type T) b step = .ok b')
    (hforms : ∀ d, step.stack = some (.values d) → ∀ i, i < n → ∀ z,
      T.retract (v.row i) (d.row i) = .ok z → z.form = form) :
    ∃ d w, step.stack = some (.values d) ∧ b'.Stacks T w n form ∧
      ∀ i, i < n → T.retract (v.row i) (d.row i) = .ok (w.row i) := by
  unfold Store.movedBuffer at hb
  obtain ⟨_, -, hb⟩ := Checked.bind_eq_ok hb
  obtain ⟨stored, -, hb⟩ := Checked.bind_eq_ok hb
  obtain ⟨given, -, hb⟩ := Checked.bind_eq_ok hb
  obtain ⟨_, -, hb⟩ := Checked.bind_eq_ok hb
  simp only [h.content, h.stack] at hb
  cases hstep : step.stack with
  | none => simp only [hstep] at hb; cases hb
  | some stack =>
    cases stack with
    | factors f => simp only [hstep] at hb; cases hb
    | values d =>
      simp only [hstep] at hb
      obtain ⟨w, hw, hb⟩ := Checked.bind_eq_ok hb
      cases hb
      unfold Store.retractRows at hw
      obtain ⟨m, hm, hw⟩ := Checked.bind_eq_ok hw
      obtain rfl : n = m := by
        obtain ⟨leaf, hleaf⟩ := List.exists_mem_of_ne_nil _
          (Value.rowCount_eq_ok.1 (Value.rowCount_of_form h.rows arrays)).1
        have hhead := (Value.rowCount_eq_ok.1 (Value.rowCount_of_form h.rows arrays)).2 leaf hleaf
        have hhead' := (Value.rowCount_eq_ok.1 hm).2 leaf (by
          simp [Tree.leaves, Tree.leaves.all, hleaf])
        exact Option.some.inj (hhead.symm.trans hhead')
      have hrow : ∀ i, i < n → ∃ z, T.retract (v.row i) (d.row i) = .ok z ∧ z.form = form := by
        intro i hi
        rw [Value.tabulate_pos hn] at hw
        obtain ⟨rows, hrows, -⟩ := Checked.bind_eq_ok hw
        have hspec := Checked.forall₂_of_mapM hrows
        have hlength : rows.length = n := by simpa using hspec.length_eq.symm
        have hget := hspec.get (i := i) (by simpa using hi) (hlength ▸ hi)
        have hz : T.retract (v.row i) (d.row i) = .ok rows[i] := by simpa using hget
        exact ⟨_, hz, hforms d hstep i hi _ hz⟩
      have : Nonempty (Value α) := ⟨.absent⟩
      choose! x hx using hrow
      obtain ⟨w', hw', hform, hrows⟩ := Value.tabulate_rows hn hx
      obtain rfl : w' = w := Except.ok.inj (hw'.symm.trans hw)
      refine ⟨d, w', rfl, ⟨rfl, rfl, hform⟩, fun i hi => ?_⟩
      rw [hrows i hi]
      exact (hx i hi).1

end Buffer

end LeastSquares
