import LeastSquares.Proofs.Array.Block

/-!
# Arrays of numbers

An array of integers or of scalars is read as the row of its cells, as scalars. On arrays of one
shape the operations of arithmetic act on these rows cell by cell, whichever of the two kinds meet, and
rows are added in place as scalars are. Integer cells are taken to hold any integer.
-/

namespace LeastSquares

/-- Two tensors of one shape combined, as rows of cells. -/
theorem Tensor.zipWith?_cells {β γ δ : Type} [Inhabited β] [Inhabited γ] {f : β → γ → δ}
    {s : Tensor β} {t : Tensor γ} (h : s.shape = t.shape) :
    ∃ u, zipWith? f s t = some u ∧ u.shape = s.shape ∧
      u.cells.toList = List.zipWith f s.cells.toList t.cells.toList := by
  refine ⟨_, zipWith?_of_shape_eq h, rfl, ?_⟩
  rw [s.toList_cells, t.toList_cells, ← h]
  refine List.ext_getElem (by simp [generate]) fun k hk _ => ?_
  simp [generate]

namespace Block

variable {α : Type}

/-- The cells are integers or scalars. -/
def IsNumeric (b : Block α) : Prop := b.kind ≠ .bool

/-- The cells as scalars. -/
def numbers [Scalar α] (b : Block α) : List α := b.toReals.cells.toList

theorem isNumeric_reals (t : Tensor α) : (reals t).IsNumeric := nofun

theorem isNumeric_ints (t : Tensor Int) : (ints t : Block α).IsNumeric := nofun

theorem length_numbers [Scalar α] (b : Block α) : b.numbers.length = b.shape.volume := by
  rw [numbers, Array.length_toList, b.toReals.size_eq]
  cases b <;> rfl

/-- Operands of one kind, or of which one is scalars. -/
theorem IsNumeric.cases₂ {a b : Block α} (ha : a.IsNumeric) (hb : b.IsNumeric) :
    (∃ s t, a = ints s ∧ b = ints t) ∨ Kind.join a.kind b.kind = .real := by
  cases a with
  | bools => exact absurd rfl ha
  | reals => exact .inr rfl
  | ints s =>
    cases b with
    | bools => exact absurd rfl hb
    | reals => exact .inr rfl
    | ints t => exact .inl ⟨s, t, rfl, rfl⟩

variable [LinearOrder α] [ExactScalar α]

@[simp] theorem numbers_ints (t : Tensor Int) :
    (ints t : Block α).numbers = t.cells.toList.map (Int.cast : Int → α) := by
  rw [numbers, toReals, Tensor.map, Array.toList_map]
  exact List.map_congr_left fun i _ => Scalar.ofInt_eq_cast i

omit [LinearOrder α] [ExactScalar α] in
@[simp] theorem numbers_reals [Scalar α] (t : Tensor α) : (reals t).numbers = t.cells.toList := rfl

/-- The result of an operation on numbers, as rows of cells. -/
def Combines (op : Block α → Block α → Option (Block α)) (f : α → α → α) : Prop :=
  ∀ {a b : Block α}, a.IsNumeric → b.IsNumeric → a.shape = b.shape →
    ∃ u, op a b = some u ∧ u.IsNumeric ∧ u.shape = a.shape ∧
      u.numbers = List.zipWith f a.numbers b.numbers

variable (whole : ∀ i, Scalar.wrap α i = i)
include whole

theorem combines_arith? {logic : Option (Bool → Bool → Bool)} {op : Int → Int → Int}
    {f : α → α → α} (hcast : ∀ i j : Int, ((op i j : Int) : α) = f i j) :
    Combines (arith? logic op f) f := by
  intro a b ha hb hshape
  rcases ha.cases₂ hb with ⟨s, t, rfl, rfl⟩ | hkind
  · obtain ⟨u, hu, hushape, hcells⟩ := Tensor.zipWith?_cells
      (f := fun i j => Scalar.wrap α (op i j)) (s := s) (t := t) hshape
    refine ⟨.ints u, ?_, isNumeric_ints u, hushape, ?_⟩
    · show (Tensor.zipWith? _ s t).map ints = _
      rw [hu]
      rfl
    · rw [numbers_ints, numbers_ints, numbers_ints, hcells, List.map_zipWith, List.zipWith_map]
      simp only [whole, hcast]
  · have hshape' : a.toReals.shape = b.toReals.shape := by
      rw [shape_toReals, shape_toReals, hshape]
    obtain ⟨u, hu, hushape, hcells⟩ := Tensor.zipWith?_cells (f := f) hshape'
    refine ⟨.reals u, ?_, isNumeric_reals u, hushape.trans a.shape_toReals, hcells⟩
    rw [arith?_of_real hkind, hu]
    rfl

theorem combines_add? : Combines (α := α) add? (· + ·) :=
  combines_arith? whole fun i j => Int.cast_add i j

theorem combines_sub? : Combines (α := α) sub? (· - ·) :=
  combines_arith? whole fun i j => Int.cast_sub i j

theorem combines_mul? : Combines (α := α) mul? (· * ·) :=
  combines_arith? whole fun i j => Int.cast_mul i j

/-- The sum of the cells, a number again. -/
theorem sum_numeric {b : Block α} (hb : b.IsNumeric) :
    b.sum.IsNumeric ∧ b.sum.shape = [] ∧ b.sum.numbers = [b.numbers.sum] := by
  cases b with
  | bools => exact absurd rfl hb
  | ints t =>
    refine ⟨isNumeric_ints _, rfl, ?_⟩
    have hfold : ∀ (l : List Int) (i : Int), l.foldl (· + ·) i = i + l.sum := by
      intro l
      induction l with
      | nil => simp
      | cons j l ih =>
        intro i
        rw [List.foldl_cons, ih, List.sum_cons, add_assoc]
    rw [sum, int, numbers_ints, numbers_ints, whole, ← Array.foldl_toList, hfold, zero_add]
    exact congrArg (fun x : α => [x]) (Int.cast_list_sum _)
  | reals t =>
    refine ⟨isNumeric_reals _, rfl, ?_⟩
    rw [sum, real, numbers_reals, numbers_reals, Scalar.sum_eq]
    rfl

omit whole

omit [LinearOrder α] [ExactScalar α] in
theorem scaled_numeric [Scalar α] (s : α) (b : Block α) :
    (scaled s b).IsNumeric ∧ (scaled s b).shape = b.shape ∧
      (scaled s b).numbers = b.numbers.map (s * ·) := by
  refine ⟨isNumeric_reals _, ?_, by simp [scaled, numbers, Tensor.map]⟩
  cases b <;> rfl

theorem isZero_iff {b : Block α} (hb : b.IsNumeric) :
    b.isZero = true ↔ ∀ x ∈ b.numbers, x = 0 := by
  cases b with
  | bools => exact absurd rfl hb
  | ints t =>
    rw [isZero, Array.all_eq_true_iff_forall_mem, numbers_ints]
    simp
  | reals t =>
    rw [isZero, Array.all_eq_true_iff_forall_mem, numbers_reals]
    simp

omit [LinearOrder α] [ExactScalar α] in
theorem all_zipWith_iff {β γ : Type} {p : β → γ → Bool} {R : β → γ → Prop}
    (h : ∀ x y, p x y = true ↔ R x y) {xs : List β} {ys : List γ}
    (hlength : xs.length = ys.length) :
    (List.zipWith p xs ys).all id = true ↔ List.Forall₂ R xs ys := by
  induction xs generalizing ys with
  | nil =>
    obtain rfl : ys = [] := by simpa using hlength.symm
    simp
  | cons x xs ih =>
    cases ys with
    | nil => cases hlength
    | cons y ys => simp [h, ih (Nat.succ.inj hlength)]

/-- Arrays of one shape are equal if their cells are. -/
theorem equal?_numeric {a b : Block α} (ha : a.IsNumeric) (hb : b.IsNumeric)
    (hshape : a.shape = b.shape) :
    ∃ r, a.equal? b = some r ∧ (r = true ↔ a.numbers = b.numbers) := by
  rcases ha.cases₂ hb with ⟨s, t, rfl, rfl⟩ | hkind
  · obtain ⟨u, hu, -, hcells⟩ := Tensor.zipWith?_cells (f := (· == ·)) (s := s) (t := t) hshape
    refine ⟨u.cells.all id, ?_, ?_⟩
    · show (Tensor.zipWith? (· == ·) s t).map (·.cells.all id) = _
      rw [hu]
      rfl
    · have hlength : s.cells.toList.length = t.cells.toList.length := by
        rw [Array.length_toList, Array.length_toList, s.size_eq, t.size_eq]
        exact congrArg Shape.volume hshape
      rw [← Array.all_toList, hcells, all_zipWith_iff (fun x y => beq_iff_eq) hlength,
        List.forall₂_eq_eq_eq, numbers_ints, numbers_ints]
      exact (List.map_injective_iff.2 (Int.cast_injective (α := α))).eq_iff.symm
  · have hshape' : a.toReals.shape = b.toReals.shape := by
      rw [shape_toReals, shape_toReals, hshape]
    obtain ⟨u, hu, -, hcells⟩ := Tensor.zipWith?_cells (f := Scalar.eq) hshape'
    refine ⟨u.cells.all id, ?_, ?_⟩
    · rw [equal?, hkind]
      show (Tensor.zipWith? Scalar.eq a.toReals b.toReals).map (·.cells.all id) = _
      rw [hu]
      rfl
    · have hlength : a.toReals.cells.toList.length = b.toReals.cells.toList.length := by
        rw [Array.length_toList, Array.length_toList, Tensor.size_eq, Tensor.size_eq, hshape']
      rw [← Array.all_toList, hcells, all_zipWith_iff (fun x y => ExactScalar.eq_iff) hlength,
        List.forall₂_eq_eq_eq, numbers, numbers]

/-- Truth values and integers, as scalars. -/
theorem cast_entry_toInts {b : Block α} (hb : b.kind ≠ .real) {k : Nat} (hk : k < b.shape.volume) :
    ((b.toInts.entry k : Int) : α) = b.toReals.entry k := by
  cases b with
  | bools t => rw [toInts, toReals, Tensor.entry_map hk, Tensor.entry_map hk, Scalar.ofInt_eq_cast]
  | ints t => rw [toInts, toReals, Tensor.entry_map hk, Scalar.ofInt_eq_cast]
  | reals t => exact absurd rfl hb

/-- Numbers of one kind are told by the scalars that they are. -/
theorem eq_of_toReals {b c : Block α} (hb : b.IsNumeric) (hkind : b.kind = c.kind)
    (h : b.toReals = c.toReals) : b = c := by
  cases b with
  | bools t => exact absurd rfl hb
  | reals t =>
    cases c with
    | reals u => exact congrArg reals h
    | bools | ints => cases hkind
  | ints t =>
    cases c with
    | bools | reals => cases hkind
    | ints u =>
      have hshape := congrArg Tensor.shape h
      rw [shape_toReals, shape_toReals] at hshape
      refine congrArg ints (Tensor.ext_entry hshape fun k hk => Int.cast_injective (α := α) ?_)
      calc ((t.entry k : Int) : α)
          _ = (ints t).toReals.entry k := cast_entry_toInts (b := ints t) nofun hk
          _ = (ints u).toReals.entry k := congrArg (Tensor.entry · k) h
          _ = (u.entry k : Int) := (cast_entry_toInts (b := ints u) nofun (hshape ▸ hk)).symm

/-! ## Rows added in place -/

/-- Rows of numbers receive rows of a kind that they can hold. -/
theorem putAdd?_numbers (whole : ∀ i, Scalar.wrap α i = i) {b rows : Block α} {index : Tensor Int}
    {n m : Nat} {s : Shape} (hb : b.IsNumeric) (hkind : Kind.join b.kind rows.kind = b.kind)
    (hshape : b.shape = n :: s) (hindex : index.shape = [m]) (hrows : rows.shape = m :: s) :
    ∃ c, b.putAdd? (.ints index) rows = some c ∧ c.kind = b.kind ∧ c.shape = n :: s ∧
      ∀ k, k < n * s.volume → c.toReals.entry k = b.toReals.entry k + ∑ i ∈ Finset.range m,
        if target n (index.entry i) = some (k / s.volume)
        then rows.toReals.entry (i * s.volume + k % s.volume) else 0 := by
  cases b with
  | bools t => exact absurd rfl hb
  | reals t =>
    obtain ⟨u, hu, hushape, hentry⟩ := putAdd?_real hshape hindex hrows
    exact ⟨.reals u, hu, rfl, hushape, hentry⟩
  | ints t =>
    have ht : t.shape = n :: s := hshape
    have hput := putAdd?_of_shape hshape hindex hrows
    by_cases hvolume : m * s.volume = 0
    · rw [if_pos hvolume] at hput
      refine ⟨.ints t, hput, rfl, ht, fun k hk => ?_⟩
      rw [sum_of_no_cells hvolume hk, add_zero]
    · rw [if_neg hvolume, hkind] at hput
      refine ⟨.ints (t.putAdd (fun i j => Scalar.wrap α (i + j)) index rows.toInts), hput, rfl, ht,
        fun k hk => ?_⟩
      have hentry : ∀ u : Tensor Int, u.shape = n :: s →
          (ints u : Block α).toReals.entry k = (u.entry k : Int) := fun u hu =>
        (cast_entry_toInts (b := ints u) nofun (by rwa [shape, hu])).symm
      have hwidth : 0 < s.volume := Nat.pos_of_mul_pos_left (Nat.zero_lt_of_lt hk)
      have hsize : index.cells.size = m := by simp [index.size_eq, hindex]
      have hnarrow : rows.kind ≠ .real := fun h => by
        rw [h] at hkind
        cases hkind
      rw [hentry t ht, hentry (t.putAdd _ index rows.toInts) ht, entry_putAdd_image (φ := (Int.cast : Int → α))
        (fun i j => by rw [whole, Int.cast_add]) ht hsize hk]
      refine congrArg _ (Finset.sum_congr rfl fun i hi => if_congr Iff.rfl ?_ rfl)
      refine cast_entry_toInts hnarrow ?_
      rw [hrows, Shape.volume_cons]
      exact Shape.cell_lt (Finset.mem_range.1 hi) (Nat.mod_lt k hwidth)

end Block

end LeastSquares
