import LeastSquares.Proofs.Buffer.Arithmetic
import LeastSquares.Proofs.Value.Number
import LeastSquares.Catalogue

/-!
# Vectors as functions

A collection of vectors stands for a function from cells to scalars that is zero where a buffer is
missing or empty. If under each key the buffers that hold something belong to the same vectors, as
many of them, in arrays of the same row shapes, then each operation of the collections is the
operation of these functions, and equality is their equality. So it makes no difference whether
zeros are stored or left out.
-/

namespace LeastSquares

/-- The number of coordinates of one row. -/
def rowSize (rows : Tree Shape) : Nat := (rows.leaves.map Shape.volume).sum

namespace Buffer

variable {C α : Type} [LinearOrder α] [ExactScalar α]

/-- The buffer is empty or holds so many vectors of a key, in arrays of numbers whose rows have
these shapes. -/
def Conforms (b : Buffer C α) (key : Key C) (count : Nat) (rows : Tree Shape) : Prop :=
  b.isEmpty = true ∨ b.content = some (.vectors key) ∧ rows.leaves ≠ [] ∧
    ∃ v, b.stack = some (.values v) ∧ v.IsNumeric (rows.map (count :: ·))

/-- The buffer stands for zeros: it is empty or filled with them. -/
def Vanishes (b : Buffer C α) : Prop := ∀ k, b.coordinate k = 0

theorem coordinate_of_values {b : Buffer C α} {v : Value α} (h : b.stack = some (.values v))
    (k : Nat) : b.coordinate k = v.cells.getD k 0 := by
  rw [coordinate, h, List.getD_eq_getElem?_getD]
  rfl

theorem vanishes_iff {b : Buffer C α} {v : Value α} (h : b.stack = some (.values v)) :
    b.Vanishes ↔ ∀ x ∈ v.cells, x = 0 := by
  simp only [Vanishes, coordinate_of_values h]
  constructor
  · intro h x hx
    obtain ⟨k, hk, rfl⟩ := List.getElem_of_mem hx
    rw [← List.getD_eq_getElem _ 0 hk, h]
  · intro h k
    by_cases hk : k < v.cells.length
    · rw [List.getD_eq_getElem _ _ hk]
      exact h _ (List.getElem_mem hk)
    · exact List.getD_eq_default _ _ (Nat.le_of_not_lt hk)

theorem vanishes_zeros (key : Key C) (shape : Shape) :
    (ofVectors key (.zeros shape) : Buffer C α).Vanishes := by
  refine (vanishes_iff rfl).2 ?_
  simp [Value.cells, Value.ofBlock, Tree.leaves, Block.zeros, Block.full, Tensor.generate]

variable {a b : Buffer C α} {key : Key C} {n : Nat} {rows : Tree Shape}

omit [LinearOrder α] [ExactScalar α] in
theorem Conforms.of_isEmpty (h : b.isEmpty = true) (key : Key C) (n : Nat) (rows : Tree Shape) :
    b.Conforms key n rows := .inl h

omit [LinearOrder α] [ExactScalar α] in
/-- The result of an operation that keeps the buffer's content. -/
theorem Conforms.holding {v : Value α} (hcontent : b.content = some (.vectors key))
    (hleaves : rows.leaves ≠ []) (hv : v.IsNumeric (rows.map (n :: ·))) (place : Residence) :
    (b.holding (.values v) place).Conforms key n rows :=
  .inr ⟨hcontent, hleaves, v, rfl, hv⟩

omit [LinearOrder α] in
theorem count_of_values {v : Value α} (h : b.stack = some (.values v)) (hleaves : rows.leaves ≠ [])
    (hv : v.IsNumeric (rows.map (n :: ·))) : b.count = .ok n := by
  have hshapes := hv.leaves
  obtain ⟨s, rest, hrows⟩ := List.exists_cons_of_ne_nil hleaves
  rw [Tree.leaves_map, hrows, List.map_cons] at hshapes
  obtain ⟨first, others, hfirst⟩ := List.exists_cons_of_ne_nil (l := Tree.leaves v) fun h => by
    rw [h] at hshapes
    cases hshapes
  rw [hfirst, List.map_cons, List.cons.injEq] at hshapes
  rw [count, h]
  simp [Stack.count, hfirst, hshapes.1]

theorem length_cells_of_numeric {v : Value α} (hv : v.IsNumeric (rows.map (n :: ·))) :
    v.cells.length = n * rowSize rows := by
  rw [hv.length_cells_eq, Tree.leaves_map, List.map_map, rowSize, ← List.sum_map_mul_left]
  exact congrArg List.sum (List.map_congr_left fun s _ => Shape.volume_cons n s)

section

variable [DecidableEq C] [FactorFamily C] (whole : ∀ i, Scalar.wrap α i = i)

omit [LinearOrder α] in
theorem checkContent_of_vectors (ha : a.content = some (.vectors key))
    (hb : b.content = some (.vectors key)) : a.checkContent b = .ok () := by
  simp [checkContent, checkVectors, ha, hb]

omit [LinearOrder α] in
theorem checkCompatible_of_vectors (ha : a.content = some (.vectors key))
    (hb : b.content = some (.vectors key)) (hna : a.count = .ok n) (hnb : b.count = .ok n) :
    a.checkCompatible b = .ok () := by
  rw [checkCompatible, checkContent_of_vectors ha hb, hna, hnb]
  simp

/-- Buffers that both hold something, combined array by array. -/
theorem combine_of_conforms {op : Block α → Block α → Option (Block α)} {f : α → α → α}
    (hop : Block.Combines op f) (hzero : f 0 0 = 0) (ha : a.Conforms key n rows)
    (hb : b.Conforms key n rows) (hae : a.isEmpty = false) (hbe : b.isEmpty = false) :
    ∃ c, combine op a b = .ok c ∧ c.Conforms key n rows ∧
      ∀ k, c.coordinate k = f (a.coordinate k) (b.coordinate k) := by
  obtain ⟨hacontent, hleaves, v, hv, hvnumeric⟩ := ha.resolve_left (by simp [hae])
  obtain ⟨hbcontent, -, w, hw, hwnumeric⟩ := hb.resolve_left (by simp [hbe])
  obtain ⟨u, hu, hunumeric, hcells⟩ := Value.zip?_numeric hop hvnumeric hwnumeric
  refine ⟨_, ?_, .holding hacontent hleaves hunumeric .device, fun k => ?_⟩
  · rw [combine, checkCompatible_of_vectors hacontent hbcontent
      (count_of_values hv hleaves hvnumeric) (count_of_values hw hleaves hwnumeric), hv, hw]
    simp [hu]
  · rw [coordinate_of_values rfl, coordinate_of_values hv, coordinate_of_values hw, hcells]
    by_cases hk : k < v.cells.length
    · have hk' : k < w.cells.length := hvnumeric.length_cells hwnumeric ▸ hk
      simp [hk, hk']
    · have hk' : ¬ k < w.cells.length := hvnumeric.length_cells hwnumeric ▸ hk
      simp [hk, hk', hzero]

omit [DecidableEq C] in
theorem scaled_of_conforms (ha : a.Conforms key n rows) (s : α) :
    ∃ c, a.scaled s = .ok c ∧ c.Conforms key n rows ∧ ∀ k, c.coordinate k = s * a.coordinate k := by
  rcases ha with he | ⟨hcontent, hleaves, v, hv, hnumeric⟩
  · refine ⟨a, by rw [scaled, stack_eq_none he], .inl he, fun k => ?_⟩
    rw [coordinate_of_isEmpty he, mul_zero]
  · obtain ⟨hscaled, hcells⟩ := Value.scaled_numeric s hnumeric
    refine ⟨_, ?_, .holding hcontent hleaves hscaled .device, fun k => ?_⟩
    · rw [scaled, hv]
      simp [checkVectors, hcontent]
    · rw [coordinate_of_values rfl, coordinate_of_values hv, hcells]
      by_cases hk : k < v.cells.length
      · simp [hk]
      · simp [hk]

include whole

theorem add_of_conforms (ha : a.Conforms key n rows) (hb : b.Conforms key n rows) :
    ∃ c, a.add b = .ok c ∧ c.Conforms key n rows ∧
      ∀ k, c.coordinate k = a.coordinate k + b.coordinate k := by
  cases hae : a.isEmpty with
  | true =>
    refine ⟨b, add_of_isEmpty_left hae, hb, fun k => ?_⟩
    rw [coordinate_of_isEmpty hae, zero_add]
  | false =>
    cases hbe : b.isEmpty with
    | true =>
      refine ⟨a, by simp [add, hae, hbe], ha, fun k => ?_⟩
      rw [coordinate_of_isEmpty hbe, add_zero]
    | false =>
      obtain ⟨c, hc, hspec⟩ :=
        combine_of_conforms (Block.combines_add? whole) (add_zero 0) ha hb hae hbe
      exact ⟨c, by simpa [add, hae, hbe] using hc, hspec⟩

theorem sub_of_conforms (ha : a.Conforms key n rows) (hb : b.Conforms key n rows) :
    ∃ c, a.sub b = .ok c ∧ c.Conforms key n rows ∧
      ∀ k, c.coordinate k = a.coordinate k - b.coordinate k := by
  cases hbe : b.isEmpty with
  | true =>
    refine ⟨a, by simp [sub, hbe], ha, fun k => ?_⟩
    rw [coordinate_of_isEmpty hbe, sub_zero]
  | false =>
    cases hae : a.isEmpty with
    | true =>
      obtain ⟨c, hc, hconforms, hcoord⟩ := scaled_of_conforms hb (-Scalar.one)
      refine ⟨c, by simpa [sub, hbe, hae, neg] using hc, hconforms, fun k => ?_⟩
      rw [hcoord, coordinate_of_isEmpty hae, Scalar.one_eq, neg_one_mul, zero_sub]
    | false =>
      obtain ⟨c, hc, hspec⟩ :=
        combine_of_conforms (Block.combines_sub? whole) (sub_zero 0) ha hb hae hbe
      exact ⟨c, by simpa [sub, hae, hbe] using hc, hspec⟩

theorem dot_of_conforms (ha : a.Conforms key n rows) (hb : b.Conforms key n rows) :
    ∃ e, a.dot b = .ok e ∧
      e.value = ∑ k ∈ Finset.range (n * rowSize rows), a.coordinate k * b.coordinate k := by
  by_cases he : a.isEmpty = true ∨ b.isEmpty = true
  · obtain ⟨e, hdot, hvalue⟩ := dot_of_isEmpty he
    refine ⟨e, hdot, hvalue.trans (Finset.sum_eq_zero fun k _ => ?_).symm⟩
    rcases he with he | he
    · rw [coordinate_of_isEmpty he, zero_mul]
    · rw [coordinate_of_isEmpty he, mul_zero]
  · rw [not_or, Bool.not_eq_true, Bool.not_eq_true] at he
    obtain ⟨hacontent, hleaves, v, hv, hvnumeric⟩ := ha.resolve_left (by simp [he.1])
    obtain ⟨hbcontent, -, w, hw, hwnumeric⟩ := hb.resolve_left (by simp [he.2])
    obtain ⟨e, hdot, hvalue⟩ := Value.dotLeaves_numeric whole hvnumeric hwnumeric
    refine ⟨e, ?_, ?_⟩
    · rw [dot, he.1, he.2, checkCompatible_of_vectors hacontent hbcontent
        (count_of_values hv hleaves hvnumeric) (count_of_values hw hleaves hwnumeric), hv, hw]
      simpa using hdot
    · rw [hvalue, Value.sum_zipWith_mul (hvnumeric.length_cells hwnumeric),
        length_cells_of_numeric hvnumeric]
      refine Finset.sum_congr rfl fun k _ => ?_
      rw [coordinate_of_values hv, coordinate_of_values hw]

omit whole in
omit [DecidableEq C] in
theorem isZero_of_conforms (ha : a.Conforms key n rows) (hae : a.isEmpty = false) :
    ∃ r, a.isZero = .ok r ∧ (r = true ↔ a.Vanishes) := by
  obtain ⟨hcontent, -, v, hv, hnumeric⟩ := ha.resolve_left (by simp [hae])
  refine ⟨(Tree.leaves v).all Block.isZero, ?_, ?_⟩
  · rw [isZero, hv]
    simp [checkVectors, hcontent]
  · rw [Value.isZero_numeric hnumeric, vanishes_iff hv]

omit whole in
theorem equal_of_conforms (ha : a.Conforms key n rows) (hb : b.Conforms key n rows) :
    ∃ r, a.equal b = .ok r ∧ (r = true ↔ ∀ k, a.coordinate k = b.coordinate k) := by
  cases hae : a.isEmpty with
  | true =>
    simp only [coordinate_of_isEmpty hae, eq_comm (a := (0 : α))]
    cases hbe : b.isEmpty with
    | true => exact ⟨true, by rw [equal, hae, hbe], by simp [coordinate_of_isEmpty hbe]⟩
    | false =>
      obtain ⟨r, hr, hiff⟩ := isZero_of_conforms hb hbe
      exact ⟨r, by rw [equal, hae, hbe, hr], hiff⟩
  | false =>
    cases hbe : b.isEmpty with
    | true =>
      simp only [coordinate_of_isEmpty hbe]
      obtain ⟨r, hr, hiff⟩ := isZero_of_conforms ha hae
      exact ⟨r, by rw [equal, hae, hbe, hr], hiff⟩
    | false =>
      obtain ⟨hacontent, hleaves, v, hv, hvnumeric⟩ := ha.resolve_left (by simp [hae])
      obtain ⟨hbcontent, -, w, hw, hwnumeric⟩ := hb.resolve_left (by simp [hbe])
      obtain ⟨rs, hrs, hiff⟩ := Value.equal_numeric hvnumeric hwnumeric
      refine ⟨rs.all id, ?_, hiff.trans ?_⟩
      · rw [equal, hae, hbe, checkContent_of_vectors hacontent hbcontent,
          count_of_values hv hleaves hvnumeric, count_of_values hw hleaves hwnumeric, hv, hw]
        simp [hrs]
      · simp only [coordinate_of_values hv, coordinate_of_values hw]
        refine ⟨fun h k => by rw [h], fun h => ?_⟩
        refine List.ext_getElem (hvnumeric.length_cells hwnumeric) fun k hk hk' => ?_
        rw [← List.getD_eq_getElem _ 0 hk, h k, List.getD_eq_getElem _ 0 hk']

end

end Buffer

/-! ## Collections -/

/-- Under each key, to what the vectors belong, how many there are and the shapes of their rows. -/
structure Scheme (C : Type) where
  owner : Key C → Key C
  count : Key C → Nat
  rows : Key C → Tree Shape

/-- The number of coordinates under a key. -/
def Scheme.size {C : Type} (S : Scheme C) (key : Key C) : Nat := S.count key * rowSize (S.rows key)

namespace Vectors

/-- The operations of two collections and a scalar that give a collection. -/
inductive Operation (α : Type) where
  | sum
  | difference
  | negation
  | multiple (s : α)
  | increased
  | decreased

variable {C α : Type} [DecidableEq C] [FactorFamily C]

/-- The left operand after an update in place. -/
def updated (update : Edit (Vectors C α) Unit) (a : Vectors C α) : Checked (Vectors C α) :=
  match update a with
  | .ok () a => .ok a
  | .error e _ => .error e

def Operation.run [Scalar α] (a b : Vectors C α) : Operation α → Checked (Vectors C α)
  | sum => a.add b
  | difference => a.sub b
  | negation => a.neg
  | multiple s => a.scaled s
  | increased => updated (increase b) a
  | decreased => updated (decrease b) a

/-- What an operation does at a cell. -/
def Operation.meaning [Ring α] (x y : α) : Operation α → α
  | sum | increased => x + y
  | difference | decreased => x - y
  | negation => -x
  | multiple s => s * x

variable [LinearOrder α] [ExactScalar α]

/-- Under each key there is nothing or what the scheme says. -/
def Conforms (v : Vectors C α) (S : Scheme C) : Prop :=
  ∀ key, (v.buffer key).Conforms (S.owner key) (S.count key) (S.rows key)

/-- The collections differ only where both stand for zeros, be a buffer missing, empty or filled. -/
def Padded (a b : Vectors C α) : Prop :=
  ∀ key, b.buffer key = a.buffer key ∨ (a.buffer key).Vanishes ∧ (b.buffer key).Vanishes

omit [FactorFamily C] in
theorem Padded.coordinate_eq {a b : Vectors C α} (h : a.Padded b) : b.coordinate = a.coordinate := by
  funext u
  rw [coordinate, coordinate]
  rcases h u.1 with h | ⟨ha, hb⟩
  · rw [h]
  · rw [ha, hb]

variable {S : Scheme C} {a b : Vectors C α}

/-- An operation known under each key, on collections of a scheme. -/
theorem Operation.run_of_conforms (whole : ∀ i, Scalar.wrap α i = i) (ha : a.Conforms S)
    (hb : b.Conforms S) (op : Operation α) :
    ∃ c, op.run a b = .ok c ∧ c.Conforms S ∧
      ∀ u, c.coordinate u = op.meaning (a.coordinate u) (b.coordinate u) := by
  have hscaled : ∀ s : α, ∃ c, a.scaled s = .ok c ∧ c.Conforms S ∧
      ∀ u, c.coordinate u = s * a.coordinate u := by
    intro s
    obtain ⟨c, hc, hspec⟩ := scaled_spec fun key => Buffer.scaled_of_conforms (ha key) s
    exact ⟨c, hc, fun key => (hspec key).1, fun u => (hspec u.1).2 u.2⟩
  have hadd := fun key => Buffer.add_of_conforms whole (ha key) (hb key)
  have hsub := fun key => Buffer.sub_of_conforms whole (ha key) (hb key)
  have hempty : ∀ k, (Buffer.empty : Buffer C α).coordinate k = 0 := Buffer.coordinate_of_isEmpty rfl
  cases op with
  | sum =>
    obtain ⟨c, hc, hspec⟩ := zipWith_spec hadd fun key hae hbe =>
      ⟨.of_isEmpty rfl .., fun k => by rw [hae, hbe, hempty, add_zero]⟩
    exact ⟨c, hc, fun key => (hspec key).1, fun u => (hspec u.1).2 u.2⟩
  | difference =>
    obtain ⟨c, hc, hspec⟩ := zipWith_spec hsub fun key hae hbe =>
      ⟨.of_isEmpty rfl .., fun k => by rw [hae, hbe, hempty, sub_zero]⟩
    exact ⟨c, hc, fun key => (hspec key).1, fun u => (hspec u.1).2 u.2⟩
  | negation =>
    obtain ⟨c, hc, hconforms, hcoord⟩ := hscaled (-Scalar.one)
    refine ⟨c, hc, hconforms, fun u => ?_⟩
    rw [hcoord, Scalar.one_eq, neg_one_mul, Operation.meaning]
  | multiple s => exact hscaled s
  | increased =>
    obtain ⟨c, hc, hspec⟩ := updateWith_spec hadd fun key hbe =>
      ⟨ha key, fun k => by rw [hbe, hempty, add_zero]⟩
    exact ⟨c, by rw [run, updated, increase, hc], fun key => (hspec key).1,
      fun u => (hspec u.1).2 u.2⟩
  | decreased =>
    obtain ⟨c, hc, hspec⟩ := updateWith_spec hsub fun key hbe =>
      ⟨ha key, fun k => by rw [hbe, hempty, sub_zero]⟩
    exact ⟨c, by rw [run, updated, decrease, hc], fun key => (hspec key).1,
      fun u => (hspec u.1).2 u.2⟩

/-- The inner product, as a sum over any keys that include ours. -/
theorem dot_of_conforms (whole : ∀ i, Scalar.wrap α i = i) (ha : a.Conforms S)
    (hb : b.Conforms S) {keys : Finset (Key C)} (hkeys : a.buffers.keys.toFinset ⊆ keys) :
    a.dot b = .ok (∑ key ∈ keys, ∑ k ∈ Finset.range (S.size key),
      a.coordinate (key, k) * b.coordinate (key, k)) := by
  obtain ⟨hdot, hmissing⟩ := dot_spec (F := fun key => ∑ k ∈ Finset.range (S.size key),
    a.coordinate (key, k) * b.coordinate (key, k)) fun key =>
      Buffer.dot_of_conforms whole (ha key) (hb key)
  rw [hdot]
  refine congrArg Except.ok (Finset.sum_subset hkeys fun key _ hkey => ?_)
  exact hmissing key (by simpa using hkey)

theorem equalUnder_spec {R : Key C → Prop}
    (h : ∀ key, ∃ r, (a.buffer key).equal (b.buffer key) = .ok r ∧ (r = true ↔ R key))
    (keys : List (Key C)) :
    ∃ r, a.equalUnder b keys = .ok r ∧ (r = true ↔ ∀ key ∈ keys, R key) := by
  induction keys with
  | nil => exact ⟨true, rfl, by simp⟩
  | cons key keys ih =>
    obtain ⟨r, hr, hiff⟩ := h key
    obtain ⟨rest, hrest, hiffs⟩ := ih
    rw [equalUnder, hr, Checked.ok_bind]
    cases r with
    | true => exact ⟨rest, hrest, by rw [List.forall_mem_cons, ← hiff, hiffs]; simp⟩
    | false => exact ⟨false, rfl, by rw [List.forall_mem_cons, ← hiff]; simp⟩

theorem equal_of_conforms (ha : a.Conforms S) (hb : b.Conforms S) :
    ∃ r, a.equal b = .ok r ∧ (r = true ↔ a.coordinate = b.coordinate) := by
  obtain ⟨r, hr, hiff⟩ := equalUnder_spec (fun key => Buffer.equal_of_conforms (ha key) (hb key))
    (a.unionKeys b)
  refine ⟨r, hr, hiff.trans ⟨fun h => ?_, fun h key _ k => congrFun h (key, k)⟩⟩
  funext u
  by_cases hkey : u.1 ∈ a.unionKeys b
  · exact h u.1 hkey u.2
  · rw [mem_unionKeys, not_or] at hkey
    rw [coordinate, coordinate, buffer, buffer, Buffers.buffer_of_not_mem hkey.1,
      Buffers.buffer_of_not_mem hkey.2]

/-- Equality of collections within a layout. -/
theorem equal_of_within {L : Layout C} (ha : a.Within L) (hb : b.Within L) :
    ∃ r, a.equal b = .ok r ∧ (r = true ↔ a.coordinate = b.coordinate) := by
  have hconforms : ∀ {v : Vectors C α}, v.Within L →
      v.Conforms ⟨id, L.rows, fun key => .leaf [L.width key]⟩ := by
    intro v hv key
    rcases hv.shaped key with he | ⟨t, ht, hshape⟩
    · exact .inl he
    · refine .inr ⟨ht.1, by simp [Tree.leaves], _, ht.2, congrArg Tree.leaf hshape, ?_⟩
      simp [Tree.leaves, Value.ofBlock, Block.isNumeric_reals]
  exact equal_of_conforms (hconforms ha) (hconforms hb)

/-- The operations on collections of one scheme are those of functions on cells, and so are the
inner product and equality; hence stored zeros can be left out, and missing ones stored. -/
theorem Conforms.pointwise (whole : ∀ i, Scalar.wrap α i = i) (ha : a.Conforms S)
    (hb : b.Conforms S) :
    (∀ op : Operation α, ∃ c, op.run a b = .ok c ∧ c.Conforms S ∧
      ∀ u, c.coordinate u = op.meaning (a.coordinate u) (b.coordinate u)) ∧
    a.dot b = .ok (∑ key ∈ a.buffers.keys.toFinset ∪ b.buffers.keys.toFinset,
      ∑ k ∈ Finset.range (S.size key), a.coordinate (key, k) * b.coordinate (key, k)) ∧
    (∃ r, a.equal b = .ok r ∧ (r = true ↔ a.coordinate = b.coordinate)) ∧
    ∀ {a' b' : Vectors C α}, a'.Conforms S → b'.Conforms S → a.Padded a' → b.Padded b' →
      (∀ op : Operation α, ∃ c c', op.run a b = .ok c ∧ op.run a' b' = .ok c' ∧
        c.equal c' = .ok true) ∧
      a'.dot b' = a.dot b ∧ a'.equal b' = a.equal b := by
  refine ⟨Operation.run_of_conforms whole ha hb,
    dot_of_conforms whole ha hb Finset.subset_union_left, equal_of_conforms ha hb, fun {a' b'} ha' hb' hpad hpad' => ⟨fun op => ?_, ?_, ?_⟩⟩
  · obtain ⟨c, hc, hconforms, hcoord⟩ := op.run_of_conforms whole ha hb
    obtain ⟨c', hc', hconforms', hcoord'⟩ := op.run_of_conforms whole ha' hb'
    obtain ⟨r, hr, hiff⟩ := equal_of_conforms hconforms hconforms'
    have hsame : c.coordinate = c'.coordinate := funext fun u => by
      rw [hcoord, hcoord', hpad.coordinate_eq, hpad'.coordinate_eq]
    exact ⟨c, c', hc, hc', hr.trans (congrArg Except.ok (hiff.2 hsame))⟩
  · rw [dot_of_conforms whole ha hb Finset.subset_union_left,
      dot_of_conforms whole ha' hb' (Finset.subset_union_right : a'.buffers.keys.toFinset ⊆
        a.buffers.keys.toFinset ∪ a'.buffers.keys.toFinset),
      hpad.coordinate_eq, hpad'.coordinate_eq]
  · obtain ⟨r, hr, hiff⟩ := equal_of_conforms ha hb
    obtain ⟨r', hr', hiff'⟩ := equal_of_conforms ha' hb'
    rw [hpad.coordinate_eq, hpad'.coordinate_eq, ← hiff] at hiff'
    rw [hr, hr', Bool.eq_iff_iff.2 hiff']

/-! ## Vectors over the rationals -/

/-- Two vectors of the plane, and no numbers. -/
def plane : Vectors Catalogue ℚ :=
  ⟨.ofList [(.type (.real 2), .ofVectors (.type (.real 2)) (.reals (.generate [2, 2] fun k => k + 1))),
    (.type (.real 1), .empty)]⟩

/-- The vectors of the plane, and a zero. -/
def planeFilled : Vectors Catalogue ℚ :=
  ⟨.ofList [(.type (.real 2), .ofVectors (.type (.real 2)) (.reals (.generate [2, 2] fun k => k + 1))),
    (.type (.real 1), .ofVectors (.type (.real 1)) (.zeros [1, 1]))]⟩

/-- A single integer. -/
def line : Vectors Catalogue ℚ :=
  ⟨.ofList [(.type (.real 1), .ofVectors (.type (.real 1)) (.ints (.generate [1, 1] fun _ => 5)))]⟩

/-- The integer, and two zeros of the plane. -/
def lineFilled : Vectors Catalogue ℚ :=
  ⟨.ofList [(.type (.real 2), .ofVectors (.type (.real 2)) (.zeros [2, 2])),
    (.type (.real 1), .ofVectors (.type (.real 1)) (.ints (.generate [1, 1] fun _ => 5)))]⟩

/-- Two vectors of the plane and one number. -/
def planeAndLine : Scheme Catalogue where
  owner key := key
  count key := if key = .type (.real 2) then 2 else 1
  rows key := .leaf (if key = .type (.real 2) then [2] else [1])

theorem conforms_planeAndLine {v : Vectors Catalogue ℚ}
    (hplane : (v.buffer (.type (.real 2))).Conforms (.type (.real 2)) 2 (.leaf [2]))
    (hline : (v.buffer (.type (.real 1))).Conforms (.type (.real 1)) 1 (.leaf [1]))
    (hkeys : ∀ key ∈ v.buffers.keys, key = .type (.real 2) ∨ key = .type (.real 1)) :
    v.Conforms planeAndLine := by
  intro key
  by_cases hkey : key ∈ v.buffers.keys
  · rcases hkeys key hkey with rfl | rfl
    · exact hplane
    · exact hline
  · exact .of_isEmpty (congrArg Buffer.isEmpty (Buffers.buffer_of_not_mem hkey)) ..

theorem plane_pointwise :
    (∀ op : Operation ℚ, ∃ c c', op.run plane line = .ok c ∧
      op.run planeFilled lineFilled = .ok c' ∧ c.equal c' = .ok true) ∧
      planeFilled.dot lineFilled = plane.dot line := by
  have hreals : ∀ {key : Key Catalogue} {n width : Nat} (t : Tensor ℚ), t.shape = [n, width] →
      (Buffer.ofVectors key (.reals t)).Conforms key n (.leaf [width]) := fun t ht =>
    .inr ⟨rfl, by simp [Tree.leaves], _, rfl, congrArg Tree.leaf ht, by
      simp [Tree.leaves, Value.ofBlock, Block.isNumeric_reals]⟩
  have hints : (Buffer.ofVectors (.type (.real 1)) (.ints (.generate [1, 1] fun _ => 5)) :
      Buffer Catalogue ℚ).Conforms (.type (.real 1)) 1 (.leaf [1]) :=
    .inr ⟨rfl, by simp [Tree.leaves], _, rfl, rfl, by
      simp [Tree.leaves, Value.ofBlock, Block.isNumeric_ints]⟩
  have hplane : plane.Conforms planeAndLine :=
    conforms_planeAndLine (hreals _ rfl) (.inl rfl) (by decide)
  have hline : line.Conforms planeAndLine := conforms_planeAndLine (.inl rfl) hints (by decide)
  have hplane' : planeFilled.Conforms planeAndLine :=
    conforms_planeAndLine (hreals _ rfl) (hreals _ rfl) (by decide)
  have hline' : lineFilled.Conforms planeAndLine :=
    conforms_planeAndLine (hreals _ rfl) hints (by decide)
  have hmissing : ∀ {v : Vectors Catalogue ℚ} {key : Key Catalogue}, key ∉ v.buffers.keys →
      v.buffer key = .empty := fun h => Buffers.buffer_of_not_mem h
  have hpad : plane.Padded planeFilled := by
    intro key
    by_cases hkey : key = .type (.real 1)
    · subst hkey
      exact .inr ⟨Buffer.coordinate_of_isEmpty rfl, Buffer.vanishes_zeros _ _⟩
    · by_cases hkey' : key = .type (.real 2)
      · subst hkey'
        exact .inl rfl
      · have hout : key ∉ [Key.type (.real 2), .type (.real 1)] := by simp [hkey, hkey']
        exact .inl ((hmissing (v := planeFilled) hout).trans (hmissing (v := plane) hout).symm)
  have hpad' : line.Padded lineFilled := by
    intro key
    by_cases hkey : key = .type (.real 2)
    · subst hkey
      exact .inr ⟨Buffer.coordinate_of_isEmpty rfl, Buffer.vanishes_zeros _ _⟩
    · by_cases hkey' : key = .type (.real 1)
      · subst hkey'
        exact .inl rfl
      · have hout : key ∉ [Key.type (.real 2), .type (.real 1)] := by simp [hkey, hkey']
        have hout' : key ∉ [Key.type (.real 1)] := by simp [hkey']
        exact .inl ((hmissing (v := lineFilled) hout).trans (hmissing (v := line) hout').symm)
  obtain ⟨hop, hdot, -⟩ :=
    (hplane.pointwise (fun _ => rfl) hline).2.2.2 hplane' hline' hpad hpad'
  exact ⟨hop, hdot⟩

end Vectors

end LeastSquares
