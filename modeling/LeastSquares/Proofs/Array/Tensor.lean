import Mathlib
import LeastSquares.Array.Tensor

/-!
# Entries of tensors

What the operations on tensors whose operands fit do to shape and entries: rows, rows taken at an
index, stacks of rows, rows added at indices, and products of matrices and vectors.
-/

namespace LeastSquares

theorem Shape.volume_row (width : Nat) : volume [width] = width := Nat.mul_one width

theorem Shape.volume_matrix (rows width : Nat) : volume [rows, width] = rows * width := by
  rw [volume_cons, volume_row]

/-- Cells stand within their array, row by row. -/
theorem Shape.cell_lt {rows width i k : Nat} (hi : i < rows) (hk : k < width) :
    i * width + k < rows * width := by
  have := Nat.mul_le_mul_right width (Nat.succ_le_of_lt hi)
  rw [Nat.succ_mul] at this
  omega

theorem Shape.cell_div {width k : Nat} (hk : k < width) (i : Nat) :
    (i * width + k) / width = i := by
  rw [Nat.mul_comm, Nat.mul_add_div (by omega), Nat.div_eq_of_lt hk, Nat.add_zero]

theorem Shape.cell_mod {width k : Nat} (hk : k < width) (i : Nat) :
    (i * width + k) % width = k := by
  rw [Nat.mul_comm, Nat.mul_add_mod, Nat.mod_eq_of_lt hk]

namespace Tensor

variable {β γ δ : Type} [Inhabited β] [Inhabited γ]

/-- The tensor is a matrix with given entries. -/
def IsMatrix (t : Tensor β) (n m : Nat) (F : Nat → Nat → β) : Prop :=
  t.shape = [n, m] ∧ ∀ i, i < n → ∀ j, j < m → t.entry (i * m + j) = F i j

theorem IsMatrix.entry_eq {t : Tensor β} {n m : Nat} {F : Nat → Nat → β} (h : t.IsMatrix n m F)
    {k : Nat} (hk : k < n * m) : t.entry k = F (k / m) (k % m) := by
  have hm : 0 < m := by
    refine Nat.pos_of_ne_zero fun h => ?_
    simp [h] at hk
  have hentry := h.2 _ ((Nat.div_lt_iff_lt_mul hm).2 hk) _ (Nat.mod_lt k hm)
  rwa [Nat.mul_comm, Nat.div_add_mod] at hentry

theorem entry_map {f : β → γ} {t : Tensor β} {k : Nat} (hk : k < t.shape.volume) :
    (t.map f).entry k = f (t.entry k) := by
  have hsize : k < t.cells.size := t.size_eq ▸ hk
  simp [entry, map, Array.getD, hsize]

theorem entry_row {t : Tensor β} {n : Nat} {s : Shape} (hs : t.shape = n :: s) (i : Nat)
    {k : Nat} (hk : k < s.volume) : (t.row i).entry k = t.entry (i * s.volume + k) := by
  rw [row, entry_generate (by simpa [hs] using hk), rowVolume, hs, List.tail_cons]

theorem broadcast?_self (t : Tensor β) : t.broadcast? t.shape = some t := by
  simp [broadcast?]

/-- A number combined with each entry of a vector. -/
theorem zipWith?_scalar {f : β → γ → δ} {s : Tensor β} {t : Tensor γ} {n : Nat}
    (hs : s.shape = []) (ht : t.shape = [n]) :
    ∃ u, zipWith? f s t = some u ∧ u.shape = [n] ∧
      ∀ [Inhabited δ] k, k < n → u.entry k = f (s.entry 0) (t.entry k) := by
  have hjoin : Shape.join? [] [n] = some [n] := by
    by_cases h : n = 1
    · subst h
      rfl
    · simp [Shape.join?, Shape.padded, Shape.joinExtent?, Ne.symm h]
  have hbroad : s.broadcast? [n] =
      some (generate [n] fun k => s.entry (Shape.project [n] [1] k)) := by
    simp [broadcast?, hs, hjoin, Shape.padded]
  have hself : t.broadcast? [n] = some t := by simp [broadcast?, ht]
  refine ⟨generate [n] fun k => f ((generate [n] fun k =>
    s.entry (Shape.project [n] [1] k)).entry k) (t.entry k), ?_, rfl, ?_⟩
  · simp [zipWith?, hs, ht, hjoin, hbroad, hself]
  · intro _ k hk
    rw [entry_generate (by simpa using hk), entry_generate (by simpa using hk)]
    rfl

theorem toList_cells (t : Tensor β) : t.cells.toList = (List.range t.shape.volume).map t.entry := by
  refine List.ext_getElem (by simp [t.size_eq]) fun k hk _ => ?_
  have hk : k < t.cells.size := by simpa using hk
  simp [entry, Array.getD, hk]

omit [Inhabited β] in
theorem generate_congr {s : Shape} {f g : Nat → β} (h : ∀ k, k < s.volume → f k = g k) :
    generate s f = generate s g := by
  have hcells : (Array.ofFn fun k : Fin s.volume => f k) = Array.ofFn fun k : Fin s.volume => g k :=
    congrArg Array.ofFn (funext fun k => h k k.2)
  simp only [generate, hcells]

/-- A tensor is told by its shape and entries. -/
theorem eq_generate {t : Tensor β} {s : Shape} {f : Nat → β} (hs : t.shape = s)
    (h : ∀ k, k < s.volume → t.entry k = f k) : t = generate s f := by
  refine ext_entry hs fun k hk => ?_
  rw [hs] at hk
  rw [h k hk, entry_generate hk]

/-! ## Rows at an index -/

theorem take?_scalar {access : Access} {t : Tensor β} {n place : Nat} {s : Shape}
    {index : Tensor Int} (hs : t.shape = n :: s) (hindex : index.shape = [])
    (hplace : access.locate n (index.entry 0) = some place) :
    ∃ u, t.take? access index = some u ∧ u.shape = s ∧
      ∀ k, k < s.volume → u.entry k = t.entry (place * s.volume + k) := by
  obtain ⟨shape, cells, hsize⟩ := index
  subst hindex
  obtain ⟨⟨cells⟩⟩ := cells
  · simp at hsize
  rename_i i rest
  obtain rfl : rest = [] := by simpa using hsize
  have hplaces : (#[i] : Array Int).mapM (access.locate n) = some #[place] := by
    have : access.locate n i = some place := hplace
    simp [this]
  refine ⟨generate s fun k =>
    t.entry ((#[place] : Array Nat).getD (k / s.volume) 0 * s.volume + k % s.volume), ?_, rfl, ?_⟩
  · simp only [take?, hs, hplaces]
    rfl
  · intro k hk
    rw [entry_generate hk, Nat.div_eq_of_lt hk, Nat.mod_eq_of_lt hk]
    rfl

theorem entry_putAdd {add : β → β → β} {t : Tensor β} {index : Tensor Int} {rows : Tensor β}
    {n : Nat} {s : Shape} (hs : t.shape = n :: s) {m : Nat} (hsize : index.cells.size = m) {k : Nat}
    (hk : k < n * s.volume) :
    (t.putAdd add index rows).entry k =
      (List.range m).foldl
        (fun cell i =>
          if target n (index.entry i) = some (k / s.volume) then
            add cell (rows.entry (i * s.volume + k % s.volume))
          else cell)
        (t.entry k) := by
  rw [putAdd, entry_generate (by simpa [hs] using hk)]
  simp only [Array.size_map, hsize, count, rowVolume, hs, List.headD_cons, List.tail_cons]
  refine List.foldl_ext _ _ _ fun cell i hi => ?_
  have hi : i < index.cells.size := hsize ▸ List.mem_range.1 hi
  simp [Array.getD, entry, hi]

/-! ## Stacks of rows -/

omit [Inhabited β] in
theorem toList_concat_cells (ts : List (Tensor β)) (cells : Array β) :
    (ts.foldl (fun cells u => cells ++ u.cells) cells).toList =
      cells.toList ++ ts.flatMap fun t => t.cells.toList := by
  induction ts generalizing cells with
  | nil => simp
  | cons t ts ih => simp [ih]

omit [Inhabited β] in
theorem length_flatMap_cells {ts : List (Tensor β)} {s : Shape} (hs : ∀ t ∈ ts, t.shape = s) :
    (ts.flatMap fun t => t.cells.toList).length = ts.length * s.volume := by
  induction ts with
  | nil => simp
  | cons t ts ih =>
    rw [List.flatMap_cons, List.length_append, ih fun u hu => hs u (by simp [hu]),
      Array.length_toList, t.size_eq, hs t (by simp), List.length_cons, Nat.succ_mul, Nat.add_comm]

omit [Inhabited β] in
theorem getElem?_flatMap_cells {ts : List (Tensor β)} {s : Shape} (hs : ∀ t ∈ ts, t.shape = s)
    {i : Nat} (hi : i < ts.length) {k : Nat} (hk : k < s.volume) :
    (ts.flatMap fun t => t.cells.toList)[i * s.volume + k]? = (ts[i]).cells[k]? := by
  induction ts generalizing i with
  | nil => simp at hi
  | cons t ts ih =>
    have hsize : t.cells.toList.length = s.volume := by
      rw [Array.length_toList, t.size_eq, hs t (by simp)]
    rw [List.flatMap_cons]
    cases i with
    | zero => rw [List.getElem?_append_left (by omega)]; simp
    | succ i =>
      rw [List.getElem?_append_right (by rw [hsize, Nat.succ_mul]; omega), hsize,
        show (i + 1) * s.volume + k - s.volume = i * s.volume + k by rw [Nat.succ_mul]; omega,
        ih (fun u hu => hs u (by simp [hu])) (by simpa using hi), List.getElem_cons_succ]

theorem stack?_of_shape {ts : List (Tensor β)} {s : Shape} (hne : ts ≠ [])
    (hs : ∀ t ∈ ts, t.shape = s) :
    ∃ u, stack? ts = some u ∧ u.shape = ts.length :: s ∧
      ∀ i (hi : i < ts.length) k, k < s.volume → u.entry (i * s.volume + k) = (ts[i]).entry k := by
  have hcells := toList_concat_cells ts #[]
  have hsize : (ts.foldl (fun cells u => cells ++ u.cells) #[]).size =
      Shape.volume (ts.length :: s) := by
    rw [← Array.length_toList, hcells]
    simpa using length_flatMap_cells hs
  refine ⟨⟨ts.length :: s, _, hsize⟩, ?_, rfl, fun i hi k hk => ?_⟩
  · cases ts with
    | nil => exact absurd rfl hne
    | cons t ts =>
      have ht : t.shape = s := hs t (by simp)
      have hall : (t :: ts).all (fun u => decide (u.shape = t.shape)) = true := by
        simp only [List.all_eq_true, decide_eq_true_eq]
        exact fun u hu => (hs u hu).trans ht.symm
      rw [stack?, if_pos hall, ht, ofCells?, dif_pos hsize]
  · have hget := getElem?_flatMap_cells hs hi hk
    rw [entry, entry, Array.getD_eq_getD_getElem?, Array.getD_eq_getD_getElem?,
      ← Array.getElem?_toList, hcells, ← hget]
    simp

/-! ## Products -/

section Products

variable {α : Type} [Inhabited α] {dot : List (α × α) → α}

theorem mulVec?_of_shape {a x : Tensor α} {m n : Nat} (ha : a.shape = [m, n])
    (hx : x.shape = [n]) :
    mulVec? dot a x = some (generate [m] fun i => dot <| (List.range n).map fun j =>
      (a.entry (i * n + j), x.entry j)) := by
  simp only [mulVec?, ha, hx, Shape.joinExtent?, if_true]
  refine congrArg some (congrArg (generate [m]) (funext fun i => congrArg dot ?_))
  refine List.map_congr_left fun j hj => ?_
  have hj := List.mem_range.1 hj
  split
  · obtain rfl : j = 0 := by omega
    rfl
  · rfl

theorem vecMul?_of_shape {y a : Tensor α} {m n : Nat} (hy : y.shape = [m])
    (ha : a.shape = [m, n]) :
    vecMul? dot y a = some (generate [n] fun j => dot <| (List.range m).map fun i =>
      (y.entry i, a.entry (i * n + j))) := by
  simp only [vecMul?, hy, ha, Shape.joinExtent?, if_true]
  refine congrArg some (congrArg (generate [n]) (funext fun j => congrArg dot ?_))
  refine List.map_congr_left fun i hi => ?_
  have hi := List.mem_range.1 hi
  split
  · obtain rfl : i = 0 := by omega
    rfl
  · rfl

end Products

end Tensor

end LeastSquares
