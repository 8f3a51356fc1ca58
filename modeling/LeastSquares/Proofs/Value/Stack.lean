import LeastSquares.Proofs.Array.Rows
import LeastSquares.Proofs.Value.Tree
import LeastSquares.Value.Item

/-!
# Values as rows

The form of a value is its tree with the kind and the shape of each array in its place. Values of one
form can be stacked, and the rows of the stack are the values, leaf by leaf. So a table of values that
is made row by row has these rows.
-/

namespace LeastSquares.Value

variable {α : Type}

/-- The kinds and shapes of the arrays, each in its place. -/
def form (v : Value α) : Tree (Kind × Shape) := v.map fun b => (b.kind, b.shape)

/-- The form of `n` values of one form as rows. -/
def rowsForm (n : Nat) (form : Tree (Kind × Shape)) : Tree (Kind × Shape) :=
  form.map fun (k, s) => (k, n :: s)

theorem skeleton_form (v : Value α) : v.form.skeleton = v.skeleton := Tree.skeleton_map ..

theorem leaves_form (v : Value α) : v.form.leaves = v.leaves.map fun b => (b.kind, b.shape) :=
  Tree.leaves_map ..

theorem skeleton_eq {v w : Value α} (h : v.form = w.form) : v.skeleton = w.skeleton := by
  rw [← skeleton_form, h, skeleton_form]

variable [Scalar α]

theorem form_row {v : Value α} {n : Nat} {form : Tree (Kind × Shape)}
    (h : v.form = rowsForm n form) (i : Nat) : (v.row i).form = form := by
  have hform : (v.row i).form = v.form.map fun (k, s) => (k, s.tail) := by
    rw [Value.form, Value.row, Tree.map_map, Value.form, Tree.map_map]
    simp only [Block.kind_row, Block.shape_row_eq]
  rw [hform, h, rowsForm, Tree.map_map]
  exact Tree.map_id form

/-! ## Stacks of values -/

/-- Leaf `p` of a value. -/
def leafAt (v : Value α) (p : Nat) : Block α := v.leaves.getD p (.int 0)

omit [Scalar α] in
theorem leafAt_eq {v : Value α} {p : Nat} (hp : p < v.leaves.length) :
    v.leafAt p = v.leaves[p] := by
  rw [leafAt, List.getD_eq_getElem _ _ hp]

omit [Scalar α] in
theorem leafAt_form {v w : Value α} (h : v.form = w.form) {p : Nat} (hp : p < w.leaves.length) :
    (v.leafAt p).kind = (w.leafAt p).kind ∧ (v.leafAt p).shape = (w.leafAt p).shape := by
  have hleaves : v.leaves.map (fun b => (b.kind, b.shape)) =
      w.leaves.map fun b => (b.kind, b.shape) := by
    rw [← leaves_form, h, leaves_form]
  have hp' : p < v.leaves.length := by
    have hlength := congrArg List.length hleaves
    simp only [List.length_map] at hlength
    omega
  have hpair := congrArg (fun l => l[p]?) hleaves
  rw [List.getElem?_map, List.getElem?_map, List.getElem?_eq_getElem hp,
    List.getElem?_eq_getElem hp'] at hpair
  rw [leafAt_eq hp, leafAt_eq hp']
  simpa using hpair

/-- Leaf `p` of each of some values. -/
def column (rows : List (Value α)) (p : Nat) : List (Block α) := rows.map (leafAt · p)

/-- The columns of some values, each from the last to the first. -/
def Gathers (v : Value α) (rows : List (Value α)) (columns : Tree (List (Block α))) : Prop :=
  columns.skeleton = v.skeleton ∧
    columns.leaves = (List.range v.leaves.length).map fun p => (column rows p).reverse

omit [Scalar α] in
theorem gathers_first (v : Value α) : Gathers v [v] (v.map fun b => [b]) := by
  refine ⟨Tree.skeleton_map .., ?_⟩
  rw [Tree.leaves_map]
  refine List.ext_getElem (by simp) fun p hp _ => ?_
  have hp : p < v.leaves.length := by simpa using hp
  simp [column, leafAt_eq hp]

omit [Scalar α] in
theorem Gathers.next {v x : Value α} {rows : List (Value α)} {columns : Tree (List (Block α))}
    (h : Gathers v rows columns) (hx : x.skeleton = v.skeleton) :
    ∃ next, columns.zip? (fun bs b => some (b :: bs)) x = some next ∧
      Gathers v (rows ++ [x]) next := by
  obtain ⟨next, hnext⟩ := Tree.zip?_ok (f := fun bs b => some (b :: bs)) columns
    (hx.trans h.1.symm) fun p _ => ⟨p.2 :: p.1, rfl⟩
  obtain ⟨-, hskeleton, hleaves⟩ := Tree.zip?_spec columns hnext
  have hnextleaves : next.leaves = (columns.leaves.zip x.leaves).map fun p => p.2 :: p.1 :=
    eq_map_of_forall₂ (hleaves.imp fun _ _ h => Option.some.inj h)
  refine ⟨next, hnext, hskeleton.trans h.1, ?_⟩
  have hlength := Tree.length_leaves_eq hx
  rw [hnextleaves, h.2]
  refine List.ext_getElem (by simp [hlength]) fun p hp _ => ?_
  have hp : p < x.leaves.length := by simpa [hlength] using hp
  simp [column, leafAt_eq hp]

omit [Scalar α] in
theorem gathers_rows {v : Value α} {rest : List (Value α)} (h : ∀ x ∈ rest, x.form = v.form) :
    ∃ columns, rest.foldlM (fun cs x => fitting (cs.zip? (fun bs b => some (b :: bs)) x))
      (v.map fun b => [b]) = .ok columns ∧ Gathers v (v :: rest) columns :=
  Checked.foldlM_induct (P := fun done columns => Gathers v (v :: done) columns)
    (gathers_first v) rest fun done x columns hx hgathers => by
      obtain ⟨next, hnext, hgathers'⟩ := hgathers.next (skeleton_eq (h x hx))
      exact ⟨next, by rw [hnext, fitting_some], hgathers'⟩

/-- Every column has the kind and the shape of its first entry, so it can be stacked. -/
theorem column_stack {v : Value α} {rest : List (Value α)} (h : ∀ x ∈ rest, x.form = v.form)
    {p : Nat} (hp : p < v.leaves.length) :
    ∃ u, Block.stack? (column (v :: rest) p) = some u ∧ u.kind = (v.leafAt p).kind ∧
      u.shape = (rest.length + 1) :: (v.leafAt p).shape ∧
      ∀ i (hi : i < (v :: rest).length), u.row i = ((v :: rest)[i]).leafAt p := by
  have hform : ∀ x ∈ v :: rest, x.form = v.form := List.forall_mem_cons.2 ⟨rfl, h⟩
  have hkind : ∀ b ∈ column (v :: rest) p, b.kind = (v.leafAt p).kind := by
    intro b hb
    obtain ⟨x, hx, rfl⟩ := List.mem_map.1 hb
    exact (leafAt_form (hform x hx) hp).1
  have hshape : ∀ b ∈ column (v :: rest) p, b.shape = (v.leafAt p).shape := by
    intro b hb
    obtain ⟨x, hx, rfl⟩ := List.mem_map.1 hb
    exact (leafAt_form (hform x hx) hp).2
  have hne : column (v :: rest) p ≠ [] := by simp [column]
  obtain ⟨u, hu, hukind, hushape, hrows⟩ := Block.stack?_rows hne hkind hshape
  refine ⟨u, hu, hukind, by simpa [column] using hushape, fun i hi => ?_⟩
  rw [hrows i (by simpa [column] using hi)]
  exact List.getElem_map ..

/-- The rows of stacked values are the values. -/
theorem stackRows_rows {rows : List (Value α)} {form : Tree (Kind × Shape)} (hne : rows ≠ [])
    (h : ∀ x ∈ rows, x.form = form) :
    ∃ w, stackRows rows = .ok w ∧ w.form = rowsForm rows.length form ∧
      ∀ i (hi : i < rows.length), w.row i = rows[i] := by
  obtain ⟨v, rest, rfl⟩ := List.exists_cons_of_ne_nil hne
  obtain rfl : v.form = form := h v (by simp)
  have hrest : ∀ x ∈ rest, x.form = v.form := fun x hx => h x (by simp [hx])
  obtain ⟨columns, hcolumns, hskeleton, hgathers⟩ := gathers_rows hrest
  obtain ⟨w, hw⟩ := Tree.traverse_ok (f := fun bs => Block.stack? bs.reverse) columns (by
    rw [hgathers]
    intro bs hbs
    obtain ⟨p, hp, rfl⟩ := List.mem_map.1 hbs
    obtain ⟨u, hu, -⟩ := column_stack hrest (List.mem_range.1 hp)
    exact ⟨u, by rw [List.reverse_reverse, hu]⟩)
  obtain ⟨hwskeleton, hleaves⟩ := Tree.traverse_spec columns hw
  rw [hgathers] at hleaves
  rw [hskeleton] at hwskeleton
  have hlength : w.leaves.length = v.leaves.length := by simpa using hleaves.length_eq.symm
  have hleaf : ∀ p (hp : p < w.leaves.length), (w.leaves[p]).kind = (v.leafAt p).kind ∧
      (w.leaves[p]).shape = (rest.length + 1) :: (v.leafAt p).shape ∧
      ∀ i (hi : i < (v :: rest).length), (w.leaves[p]).row i = ((v :: rest)[i]).leafAt p := by
    intro p hp
    obtain ⟨u, hu, hspec⟩ := column_stack hrest (hlength ▸ hp)
    have hget := hleaves.get (by simpa [hlength] using hp) hp
    have hget : Block.stack? (column (v :: rest) p) = some (w.leaves[p]) := by simpa using hget
    obtain rfl := Option.some.inj (hu.symm.trans hget)
    exact hspec
  refine ⟨w, ?_, ?_, fun i hi => ?_⟩
  · rw [stackRows, hcolumns, Checked.ok_bind, hw, fitting_some]
  · rw [rowsForm, form, form, Tree.map_map]
    refine Tree.map_eq_map_iff.2 ⟨hwskeleton, List.ext_getElem (by simp [hlength]) ?_⟩
    intro p hp _
    have hp : p < w.leaves.length := by simpa using hp
    obtain ⟨hkind, hshape, -⟩ := hleaf p hp
    simp [hkind, hshape, leafAt_eq (hlength ▸ hp)]
  · have hrow := skeleton_eq (h _ (List.getElem_mem hi))
    have hrowlength := Tree.length_leaves_eq hrow
    refine Tree.eq_of_leaves _ _ ?_ ?_
    · rw [row, Tree.skeleton_map, hwskeleton, hrow]
    · rw [row, Tree.leaves_map]
      refine List.ext_getElem (by simp [hlength, hrowlength]) fun p hp _ => ?_
      have hp : p < w.leaves.length := by simpa using hp
      rw [List.getElem_map, (hleaf p hp).2.2 i hi, leafAt_eq]

theorem tabulate_pos {n : Nat} (hn : 0 < n) (row : Nat → Checked (Value α)) :
    tabulate n row = (List.range n).mapM row >>= stackRows := by
  cases n with
  | zero => omega
  | succ n => rfl

/-- A table of values of one form has the values as its rows. -/
theorem tabulate_rows {n : Nat} {row : Nat → Checked (Value α)} {x : Nat → Value α}
    {form : Tree (Kind × Shape)} (hn : 0 < n)
    (h : ∀ i, i < n → row i = .ok (x i) ∧ (x i).form = form) :
    ∃ w, tabulate n row = .ok w ∧ w.form = rowsForm n form ∧ ∀ i, i < n → w.row i = x i := by
  obtain ⟨rows, hrows, hspec⟩ := Checked.mapM_forall₂ (f := row) (l := List.range n)
    (P := fun i y => x i = y) fun i hi => ⟨x i, (h i (List.mem_range.1 hi)).1, rfl⟩
  obtain rfl := eq_map_of_forall₂ hspec
  have hne : (List.range n).map x ≠ [] := by simpa using hn.ne'
  obtain ⟨w, hw, hform, hrow⟩ := stackRows_rows hne fun y hy => by
    obtain ⟨i, hi, rfl⟩ := List.mem_map.1 hy
    exact (h i (List.mem_range.1 hi)).2
  refine ⟨w, ?_, by simpa using hform, fun i hi => ?_⟩
  · rw [tabulate_pos hn, hrows, Checked.ok_bind, hw]
  · rw [hrow i (by simpa using hi), List.getElem_map, List.getElem_range]

/-- A table of values of one form, even one without rows. -/
theorem tabulate_all {n : Nat} {row : Nat → Checked (Value α)} {x : Nat → Value α}
    {form : Tree (Kind × Shape)} (h : ∀ i, row i = .ok (x i) ∧ (x i).form = form) :
    ∃ w, tabulate n row = .ok w ∧ w.form = rowsForm n form ∧ ∀ i, i < n → w.row i = x i := by
  cases n with
  | zero =>
    refine ⟨(x 0).map Block.noRows, ?_, ?_, nofun⟩
    · rw [tabulate, (h 0).1]
      rfl
    · rw [← (h 0).2, Value.form, Value.form, rowsForm, Tree.map_map, Tree.map_map]
      exact congrArg (Tree.map · (x 0)) (funext fun b => by cases b <;> rfl)
  | succ n => exact tabulate_rows n.succ_pos fun i _ => h i

/-- Stacks of one form that have the same rows are the same. -/
theorem eq_of_rows {v w : Value α} {n : Nat} {form : Tree (Kind × Shape)}
    (hv : v.form = rowsForm n form) (hw : w.form = rowsForm n form)
    (h : ∀ i, i < n → v.row i = w.row i) : v = w := by
  have hform := hv.trans hw.symm
  have hskeleton := skeleton_eq hform
  have hlength := Tree.length_leaves_eq hskeleton
  refine Tree.eq_of_leaves _ _ hskeleton (List.ext_getElem hlength fun p hp hp' => ?_)
  obtain ⟨hkind, hshape⟩ := leafAt_form hform hp'
  rw [leafAt_eq hp, leafAt_eq hp'] at hkind hshape
  obtain ⟨s, hs⟩ : ∃ s, (w.leaves[p]).shape = n :: s := by
    have hmem : ((w.leaves[p]).kind, (w.leaves[p]).shape) ∈ (rowsForm n form).leaves := by
      rw [← hw, leaves_form]
      exact List.mem_map_of_mem (List.getElem_mem hp')
    rw [rowsForm, Tree.leaves_map] at hmem
    obtain ⟨⟨k, s⟩, -, hks⟩ := List.mem_map.1 hmem
    exact ⟨s, (congrArg Prod.snd hks).symm⟩
  refine Block.eq_of_rows hkind (hshape.trans hs) hs fun i hi => ?_
  have hrows := congrArg Tree.leaves (h i hi)
  rw [row, row, Tree.leaves_map, Tree.leaves_map] at hrows
  have hget := congrArg (fun l => l[p]?) hrows
  simpa [hp, hp'] using hget

/-- A table is told by its form and its rows. -/
theorem tabulate_eq {n : Nat} {row : Nat → Checked (Value α)} {v : Value α}
    (form : Tree (Kind × Shape)) (hn : 0 < n) (hv : v.form = rowsForm n form)
    (h : ∀ i, i < n → row i = .ok (v.row i)) : tabulate n row = .ok v := by
  obtain ⟨w, hw, hform, hrows⟩ :=
    tabulate_rows hn (x := v.row) fun i hi => ⟨h i hi, form_row hv i⟩
  rw [hw, eq_of_rows hform hv hrows]

/-! ## Counting rows -/

omit [Scalar α] in
/-- A value has as many rows as each of its arrays, of which there must be one. -/
theorem rowCount_eq_ok {v : Value α} {n : Nat} :
    v.rowCount = .ok n ↔ v.leaves ≠ [] ∧ ∀ b ∈ v.leaves, b.shape.head? = some n := by
  unfold rowCount
  constructor
  · intro h
    obtain ⟨extents, hextents, h⟩ := Checked.bind_eq_ok h
    have hspec := forall₂_of_mapM (fitting_eq_ok hextents)
    split at h
    next => cases h
    next first rest =>
      split at h
      next hall =>
        cases h
        have hsame : ∀ e ∈ n :: rest, e = n := by simpa using hall
        refine ⟨fun hnil => ?_, fun b hb => ?_⟩
        · rw [hnil] at hspec
          cases hspec
        · obtain ⟨p, hp, rfl⟩ := List.getElem_of_mem hb
          have hget := hspec.get hp (hspec.length_eq ▸ hp)
          rw [List.get_eq_getElem, List.get_eq_getElem] at hget
          rw [hget, hsame _ (List.getElem_mem _)]
      next => cases h
  · rintro ⟨hne, hheads⟩
    have hmapM : (v.leaves.mapM fun b => b.shape.head?) = some (v.leaves.map fun _ => n) := by
      generalize v.leaves = bs at hheads
      clear hne
      induction bs with
      | nil => rfl
      | cons b bs ih =>
        rw [List.mapM_cons, hheads b (by simp), ih fun c hc => hheads c (by simp [hc])]
        rfl
    rw [hmapM, fitting_some, Checked.ok_bind]
    obtain ⟨b, bs, hbs⟩ := List.exists_cons_of_ne_nil hne
    simp [hbs]

omit [Scalar α] in
theorem head?_of_rowsForm {v : Value α} {n : Nat} {form : Tree (Kind × Shape)}
    (h : v.form = rowsForm n form) : ∀ b ∈ v.leaves, b.shape.head? = some n := by
  intro b hb
  have hmem := List.mem_map_of_mem (f := fun b : Block α => (b.kind, b.shape)) hb
  rw [← leaves_form, h, rowsForm, Tree.leaves_map] at hmem
  obtain ⟨⟨k, s⟩, -, hks⟩ := List.mem_map.1 hmem
  exact congrArg List.head? (congrArg Prod.snd hks).symm

omit [Scalar α] in
/-- The form of rows tells their number, if there is an array. -/
theorem rowCount_of_form {v : Value α} {n : Nat} {form : Tree (Kind × Shape)}
    (h : v.form = rowsForm n form) (hne : form.leaves ≠ []) : v.rowCount = .ok n := by
  refine rowCount_eq_ok.2 ⟨fun hnil => ?_, head?_of_rowsForm h⟩
  have hleaves := congrArg Tree.leaves h
  rw [leaves_form, hnil, rowsForm, Tree.leaves_map] at hleaves
  exact hne (List.map_eq_nil_iff.1 hleaves.symm)

omit [Scalar α] in
/-- Values and as many vectors. -/
theorem rowCount_pair {v : Value α} {d : Block α} {n : Nat}
    (hv : ∀ b ∈ v.leaves, b.shape.head? = some n) (hd : d.shape.head? = some n) :
    Value.rowCount (.node .tuple [v, Value.ofBlock d]) = .ok n := by
  refine rowCount_eq_ok.2 ⟨by simp [Tree.leaves, Tree.leaves.all, Value.ofBlock], fun b hb => ?_⟩
  have hb : b ∈ v.leaves ∨ b = d := by
    simpa [Tree.leaves, Tree.leaves.all, Value.ofBlock] using hb
  rcases hb with hb | rfl
  · exact hv b hb
  · exact hd

omit [Scalar α] in
theorem leaves_form_ne_nil {v : Value α} {n : Nat} {form : Tree (Kind × Shape)}
    (h : v.form = rowsForm n form) (hcount : v.rowCount = .ok n) : form.leaves ≠ [] := by
  intro hnil
  have hlength := congrArg (fun t => t.leaves.length) h
  simp only [leaves_form, rowsForm, Tree.leaves_map, List.length_map, hnil] at hlength
  exact (rowCount_eq_ok.1 hcount).1 (List.length_eq_zero_iff.1 hlength)

omit [Scalar α] in
theorem form_node_map_leaf (l : Label) (bs : List (Block α)) :
    Value.form (.node l (bs.map .leaf)) = .node l (bs.map fun b => .leaf (b.kind, b.shape)) :=
  Tree.map_node_map_leaf ..

end LeastSquares.Value
