import LeastSquares.Proofs.Array.Block
import LeastSquares.Proofs.Checked
import LeastSquares.Noise

/-!
# The Cholesky factor and its inverse

A lower triangular matrix with a positive diagonal is found again, row by row, from its product with
its transpose; and its inverse, which is lower triangular too, is found from it. So where there is a
factor, the root of the precision is its inverse.
-/

namespace LeastSquares.Noise

/-! ## Rows that are filled in order -/

section Rows

variable {β : Type}

/-- The first `n` values of a function. -/
def firsts (f : Nat → β) (n : Nat) : Array β := Array.ofFn fun i : Fin n => f i

@[simp] theorem size_firsts (f : Nat → β) (n : Nat) : (firsts f n).size = n := Array.size_ofFn

theorem firsts_succ (f : Nat → β) (n : Nat) : firsts f (n + 1) = (firsts f n).push (f n) := by
  simp [firsts, Array.ofFn_succ]

theorem getD_firsts {f : Nat → β} {n i : Nat} (hi : i < n) (d : β) : (firsts f n).getD i d = f i := by
  simp [firsts, Array.getD, hi]

theorem firsts_congr {f g : Nat → β} {n : Nat} (h : ∀ i, i < n → f i = g i) : firsts f n = firsts g n :=
  congrArg Array.ofFn (funext fun i => h i i.isLt)

theorem toArray_map_range (f : Nat → β) (n : Nat) : ((List.range n).map f).toArray = firsts f n := by
  induction n with
  | zero => rfl
  | succ n ih => rw [firsts_succ, ← ih, List.range_succ, List.map_append]; simp

/-- A row that is filled from what stands in it. -/
theorem foldl_push_firsts {f : Nat → β} {next : Array β → Nat → β} {n : Nat}
    (h : ∀ i, i < n → next (firsts f i) i = f i) :
    (List.range n).foldl (fun row i => row.push (next row i)) #[] = firsts f n := by
  induction n with
  | zero => rfl
  | succ n ih =>
    rw [List.range_succ, List.foldl_append, ih fun i hi => h i (hi.trans n.lt_succ_self), firsts_succ,
      List.foldl_cons, List.foldl_nil, h n n.lt_succ_self]

end Rows

variable {α : Type} [LinearOrder α] [ExactScalar α]

theorem foldl_range_add (f : Nat → α) (n : Nat) :
    (List.range n).foldl (fun total k => total + f k) Scalar.zero = ∑ k ∈ Finset.range n, f k := by
  rw [← Block.sum_map_range, ← List.foldl_map (f := f) (g := (· + ·)), Scalar.foldl_add_eq,
    Scalar.zero_eq, zero_add]

theorem rowDot_firsts {f g : Nat → α} {m m' n : Nat} (hm : n ≤ m) (hm' : n ≤ m') :
    rowDot (firsts f m) (firsts g m') n = ∑ k ∈ Finset.range n, f k * g k := by
  refine (foldl_range_add _ n).trans (Finset.sum_congr rfl fun k hk => ?_)
  have hk := Finset.mem_range.1 hk
  rw [getD_firsts (hk.trans_le hm), getD_firsts (hk.trans_le hm')]

/-- The rows of a square matrix. -/
def square (a : Nat → Nat → α) (n : Nat) : Matrix α := firsts (fun i => firsts (a i) n) n

/-- The rows of a lower triangular matrix, each as far as the diagonal. -/
def staircase (l : Nat → Nat → α) (n : Nat) : Matrix α := firsts (fun i => firsts (l i) (i + 1)) n

theorem entry_square {a : Nat → Nat → α} {n i j : Nat} (hi : i < n) (hj : j < n) :
    entry (square a n) i j = a i j := by
  rw [entry, square, getD_firsts hi, getD_firsts hj]

theorem entry_staircase {l : Nat → Nat → α} {n i j : Nat} (hi : i < n) (hj : j ≤ i) :
    entry (staircase l n) i j = l i j := by
  rw [entry, staircase, getD_firsts hi, getD_firsts (Nat.lt_succ_of_le hj)]

/-! ## The factor -/

/-- A lower triangular matrix with positive diagonal whose product with its transpose is `a`. -/
structure IsFactor (a l : Nat → Nat → α) (n : Nat) : Prop where
  lower : ∀ i j, i < j → l i j = 0
  pos : ∀ i, i < n → 0 < l i i
  product : ∀ i j, i < n → j < n → ∑ k ∈ Finset.range n, l i k * l j k = a i j

variable {a l x : Nat → Nat → α} {n : Nat}

/-- A sum over a row that ends at the diagonal. -/
theorem sum_lower {f : Nat → α} {i : Nat} (hi : i < n) (hf : ∀ k, i < k → f k = 0) :
    ∑ k ∈ Finset.range n, f k = ∑ k ∈ Finset.range i, f k + f i := by
  rw [← Finset.sum_range_succ]
  refine (Finset.sum_subset (Finset.range_subset_range.2 hi) fun k _ hk => hf k ?_).symm
  simpa using hk

theorem IsFactor.sum_eq (h : IsFactor a l n) {i j : Nat} (hi : i < n) (hj : j < n) :
    ∑ k ∈ Finset.range j, l i k * l j k + l i j * l j j = a i j := by
  rw [← h.product i j hi hj]
  exact (sum_lower hj fun k hk => by rw [h.lower j k hk, mul_zero]).symm

/-- The next row of the factor, after those above it. -/
theorem IsFactor.factorRow? (h : IsFactor a l n)
    (hroot : ∀ i, i < n → Elementary.sqrt (l i i * l i i) = l i i) {i : Nat} (hi : i < n) :
    factorRow? (firsts (a i) n) (staircase l i) = some (firsts (l i) (i + 1)) := by
  let next (row : Array α) (j : Nat) : α :=
    ((firsts (a i) n).getD j Scalar.zero - rowDot row ((staircase l i).getD j #[]) j) /
      entry (staircase l i) j j
  have hnext : ∀ j, j < i → next (firsts (l i) j) j = l i j := by
    intro j hj
    have hjn := hj.trans hi
    show ((firsts (a i) n).getD j Scalar.zero - rowDot _ ((staircase l i).getD j #[]) j) / _ = _
    rw [entry_staircase hj le_rfl, staircase, getD_firsts hj, getD_firsts hjn,
      rowDot_firsts le_rfl j.le_succ, ← h.sum_eq hi hjn, add_sub_cancel_left,
      mul_div_cancel_right₀ _ (h.pos j hjn).ne']
  have hrow := foldl_push_firsts hnext
  simp only [next] at hrow
  have hrest : (firsts (a i) n).getD i Scalar.zero - rowDot (firsts (l i) i) (firsts (l i) i) i =
      l i i * l i i := by
    rw [getD_firsts hi, rowDot_firsts le_rfl le_rfl, ← h.sum_eq hi hi, add_sub_cancel_left]
  have hsize : (staircase l i).size = i := size_firsts ..
  unfold Noise.factorRow?
  simp only [hsize, hrow, hrest]
  rw [if_pos, hroot i hi, firsts_succ]
  rw [Scalar.lt_eq_decide, Scalar.zero_eq]
  exact decide_eq_true (mul_pos (h.pos i hi) (h.pos i hi))

/-- The factor of a matrix is found if there is one. -/
theorem IsFactor.cholesky? (h : IsFactor a l n)
    (hroot : ∀ i, i < n → Elementary.sqrt (l i i * l i i) = l i i) :
    cholesky? (square a n) = some (staircase l n) := by
  have hrows : ∀ m, m ≤ n → (firsts (fun i => firsts (a i) n) m).foldlM
      (fun above row => do return above.push (← Noise.factorRow? row above)) #[] =
        some (staircase l m) := by
    intro m hm
    induction m with
    | zero => rfl
    | succ m ih =>
      rw [firsts_succ, Array.foldlM_push, ih (Nat.le_of_succ_le hm)]
      show (Noise.factorRow? (firsts (a m) n) (staircase l m) >>= fun row =>
        some ((staircase l m).push row)) = _
      rw [h.factorRow? hroot hm]
      exact congrArg some (firsts_succ _ m).symm
  exact hrows n le_rfl

/-! ## Its inverse -/

/-- A lower triangular matrix whose product with the lower triangular `l` is the identity. -/
structure IsInverse (l x : Nat → Nat → α) (n : Nat) : Prop where
  lower : ∀ i j, i < j → x i j = 0
  product : ∀ i j, i < n → j < n → ∑ k ∈ Finset.range n, l i k * x k j = if i = j then 1 else 0

theorem lowerInverse_staircase (hlower : ∀ i j, i < j → l i j = 0) (hpivot : ∀ i, i < n → l i i ≠ 0)
    (h : IsInverse l x n) : lowerInverse (staircase l n) = square x n := by
  have hsum : ∀ {i j}, i < n → j < n →
      ∑ k ∈ Finset.range i, l i k * x k j + l i i * x i j = if i = j then 1 else 0 := by
    intro i j hi hj
    rw [← h.product i j hi hj]
    exact (sum_lower hi fun k hk => by rw [hlower i k hk, zero_mul]).symm
  let step (above : Matrix α) (row : Array α) : Matrix α :=
    let i := above.size
    let pivot := row.getD i Scalar.zero
    let next := (List.range (staircase l n).size).map fun j =>
      if j = i then Scalar.one / pivot
      else if j < i then
        let total := (List.range i).foldl
          (fun total k => total + row.getD k Scalar.zero * entry above k j) Scalar.zero
        Neg.neg total / pivot
      else Scalar.zero
    above.push next.toArray
  have hstep : ∀ i, i < n → step (firsts (fun i => firsts (x i) n) i) (firsts (l i) (i + 1)) =
      firsts (fun i => firsts (x i) n) (i + 1) := by
    intro i hi
    have hsize : (firsts (fun i => firsts (x i) n) i).size = i := size_firsts ..
    have hwidth : (staircase l n).size = n := size_firsts ..
    simp only [step, hsize, hwidth, toArray_map_range, firsts_succ (fun i => firsts (x i) n)]
    refine congrArg _ (firsts_congr fun j hj => ?_)
    rw [getD_firsts i.lt_succ_self]
    split
    · obtain rfl := ‹j = i›
      have hzero : ∑ k ∈ Finset.range j, l j k * x k j = 0 := Finset.sum_eq_zero fun k hk => by
        rw [h.lower k j (Finset.mem_range.1 hk), mul_zero]
      have hone := hsum hi hi
      rw [hzero, zero_add, if_pos rfl] at hone
      rw [Scalar.one_eq, ← hone, mul_div_cancel_left₀ _ (hpivot j hi)]
    · split
      · have hone := hsum hi hj
        rw [if_neg (Ne.symm ‹_›)] at hone
        have htotal : (List.range i).foldl (fun total k => total +
            (firsts (l i) (i + 1)).getD k Scalar.zero *
              entry (firsts (fun i => firsts (x i) n) i) k j) Scalar.zero =
            ∑ k ∈ Finset.range i, l i k * x k j := by
          refine (foldl_range_add _ i).trans (Finset.sum_congr rfl fun k hk => ?_)
          have hk := Finset.mem_range.1 hk
          rw [getD_firsts (hk.trans i.lt_succ_self), entry, getD_firsts hk, getD_firsts hj]
        rw [htotal, neg_eq_of_add_eq_zero_right hone, mul_div_cancel_left₀ _ (hpivot i hi)]
      · rw [Scalar.zero_eq, h.lower i j (by omega)]
  have hrows : ∀ m, m ≤ n → (firsts (fun i => firsts (l i) (i + 1)) m).foldl step #[] =
      firsts (fun i => firsts (x i) n) m := by
    intro m hm
    induction m with
    | zero => rfl
    | succ m ih =>
      rw [firsts_succ, Array.foldl_push, ih (Nat.le_of_succ_le hm), hstep m hm]
  exact hrows n le_rfl

/-! ## The root of the precision -/

omit [LinearOrder α] [ExactScalar α] in
theorem entry_generate_cell [Inhabited α] {i j : Nat} (hi : i < n) (hj : j < n) :
    (Tensor.generate [n, n] fun k => x (k / n) (k % n)).entry (i * n + j) = x i j := by
  have hcell : i * n + j < Shape.volume [n, n] := by
    rw [Shape.volume_matrix]
    exact Shape.cell_lt hi hj
  rw [Tensor.entry_generate hcell, Shape.cell_div hj, Shape.cell_mod hj]

/-- A product with a transpose is symmetric, so it is what it is symmetrised to. -/
theorem IsFactor.symmetrised (h : IsFactor a l n) :
    IsFactor (fun i j => (a i j + a j i) / Scalar.two) l n where
  lower := h.lower
  pos := h.pos
  product i j hi hj := by
    have hsymm : a j i = a i j := by
      rw [← h.product i j hi hj, ← h.product j i hj hi]
      exact Finset.sum_congr rfl fun k _ => mul_comm ..
    have htwo : (Scalar.two : α) = 2 := (Scalar.ofInt_eq_cast 2).trans (Int.cast_ofNat 2)
    rw [h.product i j hi hj, hsymm, htwo, add_self_div_two]

/-- The noise with a covariance whose factor has an inverse is weighed by that inverse. -/
theorem ofCovariance_of_factor {covariance : Block α} (hshape : covariance.shape = [n, n])
    (hfactor : IsFactor (fun i j => covariance.toReals.entry (i * n + j)) l n)
    (hroot : ∀ i, i < n → Elementary.sqrt (l i i * l i i) = l i i) (hinverse : IsInverse l x n) :
    ofCovariance covariance = .ok (full (.reals (.generate [n, n] fun k => x (k / n) (k % n)))) := by
  have hcholesky : Noise.cholesky? (symmetrised n covariance.toReals) = some (staircase l n) :=
    hfactor.symmetrised.cholesky? hroot
  have hlower := lowerInverse_staircase hfactor.lower (fun i hi => (hfactor.pos i hi).ne') hinverse
  unfold ofCovariance
  simp only [hshape, hcholesky, hlower, decide_true, require_true, Checked.ok_bind]
  refine congrArg (fun t => Except.ok (full (.reals t))) (Tensor.generate_congr fun k hk => ?_)
  rw [Shape.volume_matrix] at hk
  have hn : 0 < n := Nat.pos_of_ne_zero fun hn => by simp [hn] at hk
  exact entry_square ((Nat.div_lt_iff_lt_mul hn).2 hk) (Nat.mod_lt k hn)

end LeastSquares.Noise
