import LeastSquares.Proofs.Array.Number
import LeastSquares.Proofs.Value.Coordinates
import LeastSquares.Buffer.Basic

/-!
# Values of numbers

A tree whose arrays hold numbers is read as the row of all its cells. What combines single arrays
of one shape combines such rows; the sum of products, the test for zero and that for equality are
those of the rows.
-/

namespace LeastSquares

open Block (Combines)

namespace Value

variable {α : Type} [LinearOrder α] [ExactScalar α]

/-- The arrays hold numbers under these shapes. -/
structure IsNumeric (shapes : Tree Shape) (v : Value α) : Prop where
  shapes_eq : Tree.map Block.shape v = shapes
  numeric : ∀ b ∈ Tree.leaves v, b.IsNumeric

/-- Two arrays of numbers of one shape. -/
def Paired (a b : Block α) : Prop := a.IsNumeric ∧ b.IsNumeric ∧ a.shape = b.shape

omit [LinearOrder α] [ExactScalar α] in
theorem IsNumeric.skeleton {shapes : Tree Shape} {v : Value α} (h : v.IsNumeric shapes) :
    v.skeleton = shapes.skeleton := by
  rw [← h.shapes_eq, Tree.skeleton_map]

omit [LinearOrder α] [ExactScalar α] in
theorem IsNumeric.leaves {shapes : Tree Shape} {v : Value α} (h : v.IsNumeric shapes) :
    (Tree.leaves v).map Block.shape = shapes.leaves := by
  rw [← h.shapes_eq, Tree.leaves_map]

omit [LinearOrder α] [ExactScalar α] in
theorem IsNumeric.paired {shapes : Tree Shape} {v w : Value α} (hv : v.IsNumeric shapes)
    (hw : w.IsNumeric shapes) : List.Forall₂ Paired (Tree.leaves v) (Tree.leaves w) := by
  have hshapes : (Tree.leaves v).map Block.shape = (Tree.leaves w).map Block.shape :=
    hv.leaves.trans hw.leaves.symm
  have hlength : (Tree.leaves v).length = (Tree.leaves w).length := by
    simpa using congrArg List.length hshapes
  rw [List.forall₂_iff_get]
  refine ⟨hlength, fun i hi hi' => ⟨hv.numeric _ (List.get_mem ..), hw.numeric _ (List.get_mem ..), ?_⟩⟩
  have hshape := congrArg (fun l => l[i]?) hshapes
  rw [List.getElem?_map, List.getElem?_map, List.getElem?_eq_getElem hi,
    List.getElem?_eq_getElem hi'] at hshape
  exact Option.some.inj hshape

theorem length_numbers_of_paired {xs ys : List (Block α)} (h : List.Forall₂ Paired xs ys) :
    (xs.flatMap Block.numbers).length = (ys.flatMap Block.numbers).length := by
  induction h with
  | nil => rfl
  | cons h _ ih =>
    rw [List.flatMap_cons, List.flatMap_cons, List.length_append, List.length_append, ih,
      Block.length_numbers, Block.length_numbers, h.2.2]

theorem IsNumeric.length_cells {shapes : Tree Shape} {v w : Value α} (hv : v.IsNumeric shapes)
    (hw : w.IsNumeric shapes) : v.cells.length = w.cells.length :=
  length_numbers_of_paired (hv.paired hw)

omit [LinearOrder α] [ExactScalar α] in
theorem length_cells_of_shapes [Scalar α] {shapes : Tree Shape} {v : Value α}
    (h : Tree.map Block.shape v = shapes) :
    v.cells.length = (shapes.leaves.map Shape.volume).sum := by
  rw [cells, List.length_flatMap, ← h, Tree.leaves_map, List.map_map]
  exact congrArg List.sum (List.map_congr_left fun b _ => b.length_numbers)

theorem IsNumeric.length_cells_eq {shapes : Tree Shape} {v : Value α} (hv : v.IsNumeric shapes) :
    v.cells.length = (shapes.leaves.map Shape.volume).sum := length_cells_of_shapes hv.shapes_eq

/-- Two arrays of one shape that an operation combines cell by cell. -/
def Meets (op : Block α → Block α → Option (Block α)) (f : α → α → α) (a b : Block α) : Prop :=
  a.shape = b.shape ∧ ∃ u, op a b = some u ∧ u.IsNumeric ∧ u.shape = a.shape ∧
    u.numbers = List.zipWith f a.numbers b.numbers

/-- What combines single arrays combines rows of them. -/
theorem combines_rows {op : Block α → Block α → Option (Block α)} {f : α → α → α}
    {xs ys us : List (Block α)} (h : List.Forall₂ (Meets op f) xs ys)
    (hus : List.Forall₂ (fun p u => op p.1 p.2 = some u) (xs.zip ys) us) :
    us.map Block.shape = xs.map Block.shape ∧ (∀ u ∈ us, u.IsNumeric) ∧
      us.flatMap Block.numbers =
        List.zipWith f (xs.flatMap Block.numbers) (ys.flatMap Block.numbers) := by
  induction h generalizing us with
  | nil =>
    cases hus
    simp
  | @cons a b xs ys hmeets hrest ih =>
    rw [List.zip_cons_cons] at hus
    obtain ⟨u, us, hu, hrestus, rfl⟩ := List.forall₂_cons_left_iff.1 hus
    obtain ⟨hshape, u', hu', hunumeric, hushape, hcells⟩ := hmeets
    obtain rfl : u = u' := Option.some.inj (hu.symm.trans hu')
    obtain ⟨hshapes, hnumerics, hrow⟩ := ih hrestus
    refine ⟨by simp [hushape, hshapes], by simpa using ⟨hunumeric, hnumerics⟩, ?_⟩
    have hlength : a.numbers.length = b.numbers.length := by
      rw [Block.length_numbers, Block.length_numbers, hshape]
    rw [List.flatMap_cons, List.flatMap_cons, List.flatMap_cons, List.zipWith_append hlength, hcells,
      hrow]

theorem zip?_of_meets {op : Block α → Block α → Option (Block α)} {f : α → α → α} {v w : Value α}
    (hskeleton : w.skeleton = v.skeleton)
    (hmeets : List.Forall₂ (Meets op f) (Tree.leaves v) (Tree.leaves w)) :
    ∃ u : Value α, Tree.zip? op v w = some u ∧ u.IsNumeric (Tree.map Block.shape v) ∧
      u.cells = List.zipWith f v.cells w.cells := by
  obtain ⟨u, hu⟩ := Tree.zip?_ok (f := op) v hskeleton fun p hp => by
    obtain ⟨-, u, hu, -⟩ := (List.forall₂_iff_zip.1 hmeets).2 hp
    exact ⟨u, hu⟩
  obtain ⟨-, hskeleton, hleaves⟩ := Tree.zip?_spec v hu
  obtain ⟨hshapes, hnumeric, hcells⟩ := combines_rows hmeets hleaves
  exact ⟨u, hu, ⟨Tree.map_eq_map_iff.2 ⟨hskeleton, hshapes⟩, hnumeric⟩, hcells⟩

theorem zip?_numeric {op : Block α → Block α → Option (Block α)} {f : α → α → α}
    (hop : Combines op f) {shapes : Tree Shape} {v w : Value α} (hv : v.IsNumeric shapes)
    (hw : w.IsNumeric shapes) :
    ∃ u : Value α, Tree.zip? op v w = some u ∧ u.IsNumeric shapes ∧
      u.cells = List.zipWith f v.cells w.cells := by
  have hmeets : List.Forall₂ (Meets op f) (Tree.leaves v) (Tree.leaves w) :=
    (hv.paired hw).imp fun _ _ ⟨ha, hb, hshape⟩ => ⟨hshape, hop ha hb hshape⟩
  rw [← hv.shapes_eq]
  exact zip?_of_meets (hw.skeleton.trans hv.skeleton.symm) hmeets

theorem shapes_scaled (s : α) (v : Value α) :
    Tree.map Block.shape (Tree.map (Block.scaled s) v) = Tree.map Block.shape v := by
  rw [Tree.map_map]
  exact congrArg (Tree.map · v) (funext fun b => (Block.scaled_numeric s b).2.1)

theorem cells_scaled (s : α) (v : Value α) :
    cells (Tree.map (Block.scaled s) v) = v.cells.map (s * ·) := by
  rw [cells, cells, Tree.leaves_map, List.flatMap_map, List.map_flatMap]
  exact congrArg (List.flatMap · (Tree.leaves v)) (funext fun b => (Block.scaled_numeric s b).2.2)

theorem scaled_numeric (s : α) {shapes : Tree Shape} {v : Value α} (hv : v.IsNumeric shapes) :
    IsNumeric shapes (Tree.map (Block.scaled s) v) ∧
      cells (Tree.map (Block.scaled s) v) = v.cells.map (s * ·) := by
  refine ⟨⟨(shapes_scaled s v).trans hv.shapes_eq, ?_⟩, cells_scaled s v⟩
  rw [Tree.leaves_map]
  simp only [List.forall_mem_map]
  exact fun b _ => (Block.scaled_numeric s b).1

theorem sum_zipWith_mul {xs ys : List α} (h : xs.length = ys.length) :
    (List.zipWith (· * ·) xs ys).sum = ∑ k ∈ Finset.range xs.length, xs.getD k 0 * ys.getD k 0 := by
  rw [← Block.sum_map_range]
  refine congrArg List.sum (List.ext_getElem (by simp [h]) fun k hk _ => ?_)
  have hk : k < xs.length ∧ k < ys.length := by simpa using hk
  simp [hk.1, hk.2]

/-- The products of paired rows, array by array or all at once. -/
theorem sum_products {xs ys : List (Block α)} (h : List.Forall₂ Paired xs ys) :
    ((xs.zip ys).map fun p => (List.zipWith (· * ·) p.1.numbers p.2.numbers).sum).sum =
      (List.zipWith (· * ·) (xs.flatMap Block.numbers) (ys.flatMap Block.numbers)).sum := by
  induction h with
  | nil => rfl
  | @cons a b xs ys hpair _ ih =>
    have hlength : a.numbers.length = b.numbers.length := by
      rw [Block.length_numbers, Block.length_numbers, hpair.2.2]
    rw [List.zip_cons_cons, List.map_cons, List.sum_cons, ih, List.flatMap_cons, List.flatMap_cons,
      List.zipWith_append hlength, List.sum_append]

theorem dotLeaves_numeric (whole : ∀ i, Scalar.wrap α i = i) {shapes : Tree Shape} {v w : Value α}
    (hv : v.IsNumeric shapes) (hw : w.IsNumeric shapes) :
    ∃ e, Buffer.dotLeaves (Tree.leaves v) (Tree.leaves w) = .ok e ∧
      e.value = (List.zipWith (· * ·) v.cells w.cells).sum := by
  have hpaired := hv.paired hw
  obtain ⟨e, he, -, -, hsum⟩ := Checked.foldlM_induct (b := (Block.int 0 : Block α))
    (P := fun done total => total.IsNumeric ∧ total.shape = [] ∧ total.numbers =
      [(done.map fun p => (List.zipWith (· * ·) p.1.numbers p.2.numbers).sum).sum])
    (f := fun total p => do
      let product ← fitting (Block.mul? p.1 p.2)
      fitting (total.add? product.sum))
    ⟨Block.isNumeric_ints _, rfl, by simp [Block.int, Tensor.scalar]⟩
    ((Tree.leaves v).zip (Tree.leaves w)) (by
      rintro done p total hp ⟨htotal, hshape, hnumbers⟩
      obtain ⟨ha, hb, hab⟩ := (List.forall₂_iff_zip.1 hpaired).2 hp
      obtain ⟨product, hproduct, hpnumeric, -, hpcells⟩ := Block.combines_mul? whole ha hb hab
      obtain ⟨hsnumeric, hsshape, hscells⟩ := Block.sum_numeric whole hpnumeric
      obtain ⟨next, hnext, hnumeric, hnshape, hncells⟩ :=
        Block.combines_add? whole htotal hsnumeric (hshape.trans hsshape.symm)
      refine ⟨next, ?_, hnumeric, hnshape.trans hshape, ?_⟩
      · rw [hproduct, fitting_some, Checked.ok_bind, hnext, fitting_some]
      · rw [hncells, hnumbers, hscells, hpcells]
        simp)
  refine ⟨e, he, ?_⟩
  rw [sum_products hpaired] at hsum
  rw [Block.value, Tensor.entry, Array.getD_eq_getD_getElem?, ← Array.getElem?_toList]
  exact (congrArg (fun l : List α => l[0]?.getD default) hsum).trans rfl

/-- Paired rows are equal if they are so array by array. -/
theorem all_iff_of_paired {xs ys : List (Block α)} (h : List.Forall₂ Paired xs ys)
    {rs : List Bool}
    (hrs : List.Forall₂ (fun p r => r = true ↔ p.1.numbers = p.2.numbers) (xs.zip ys) rs) :
    rs.all id = true ↔ xs.flatMap Block.numbers = ys.flatMap Block.numbers := by
  induction h generalizing rs with
  | nil =>
    cases hrs
    simp
  | @cons a b xs ys hpair _ ih =>
    rw [List.zip_cons_cons] at hrs
    obtain ⟨r, rs, hr, hrest, rfl⟩ := List.forall₂_cons_left_iff.1 hrs
    have hlength : a.numbers.length = b.numbers.length := by
      rw [Block.length_numbers, Block.length_numbers, hpair.2.2]
    rw [List.all_cons, Bool.and_eq_true, id, hr, ih hrest, List.flatMap_cons, List.flatMap_cons]
    exact ⟨fun ⟨h, h'⟩ => by rw [h, h'], fun h => List.append_inj h hlength⟩

theorem equal_numeric {shapes : Tree Shape} {v w : Value α} (hv : v.IsNumeric shapes)
    (hw : w.IsNumeric shapes) :
    ∃ rs, ((Tree.leaves v).zip (Tree.leaves w)).mapM (fun p => fitting (p.1.equal? p.2)) =
      .ok rs ∧ (rs.all id = true ↔ v.cells = w.cells) := by
  have hpaired := hv.paired hw
  obtain ⟨rs, hrs, hspec⟩ := Checked.mapM_forall₂ (f := fun p => fitting (Block.equal? p.1 p.2))
    (P := fun p r => r = true ↔ p.1.numbers = p.2.numbers)
    (l := (Tree.leaves v).zip (Tree.leaves w)) fun p hp => by
      obtain ⟨ha, hb, hshape⟩ := (List.forall₂_iff_zip.1 hpaired).2 hp
      obtain ⟨r, hr, hiff⟩ := Block.equal?_numeric ha hb hshape
      exact ⟨r, by rw [hr, fitting_some], hiff⟩
  exact ⟨rs, hrs, all_iff_of_paired hpaired hspec⟩

theorem isZero_numeric {shapes : Tree Shape} {v : Value α} (hv : v.IsNumeric shapes) :
    (Tree.leaves v).all Block.isZero = true ↔ ∀ x ∈ v.cells, x = 0 := by
  rw [List.all_eq_true, cells]
  simp only [List.mem_flatMap]
  constructor
  · rintro h x ⟨b, hb, hx⟩
    exact (Block.isZero_iff (hv.numeric b hb)).1 (h b hb) x hx
  · intro h b hb
    exact (Block.isZero_iff (hv.numeric b hb)).2 fun x hx => h x ⟨b, hb, hx⟩

end Value

end LeastSquares
