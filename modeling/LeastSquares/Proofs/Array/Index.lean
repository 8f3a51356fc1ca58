import LeastSquares.Proofs.Array.Rows
import LeastSquares.Proofs.Checked

/-!
# Rows at an index

What is taken from an array at places that are all there, in the shape of the index: a row of it is
what stands at the row of the index, zeros are found wherever one looks among zeros, and what stands
at stacked indices is the stack of what stands at each. The cells may be of any kind.
-/

namespace LeastSquares

namespace Tensor

variable {β : Type} [Inhabited β]

/-- The entries of the index are places among `n`. -/
def Within (n : Nat) (index : Tensor Int) : Prop :=
  ∀ k, k < index.shape.volume → 0 ≤ index.entry k ∧ index.entry k < n

instance (n : Nat) (index : Tensor Int) : Decidable (index.Within n) :=
  inferInstanceAs (Decidable (∀ k, k < index.shape.volume → 0 ≤ index.entry k ∧ index.entry k < n))

/-- The rows at places that are all there, in the shape of the index. -/
def rowsAt (t : Tensor β) (index : Tensor Int) : Tensor β :=
  generate (index.shape ++ t.shape.tail) fun k =>
    t.entry ((index.entry (k / t.rowVolume)).toNat * t.rowVolume + k % t.rowVolume)

theorem locate_within {access : Access} {n : Nat} {index : Tensor Int} (h : index.Within n) {i : Int}
    (hi : i ∈ index.cells.toList) : access.locate n i = some i.toNat := by
  rw [toList_cells] at hi
  obtain ⟨k, hk, rfl⟩ := List.mem_map.1 hi
  obtain ⟨hnonneg, hlt⟩ := h k (List.mem_range.1 hk)
  have hlocate : access.locate n (index.entry k).toNat = some (index.entry k).toNat :=
    Access.locate_of_lt (by omega)
  rwa [Int.toNat_of_nonneg hnonneg] at hlocate

theorem take?_within {access : Access} {t : Tensor β} {n : Nat} {s : Shape} {index : Tensor Int}
    (ht : t.shape = n :: s) (hindex : index.Within n) :
    t.take? access index = some (t.rowsAt index) := by
  have hplaces : index.cells.mapM (access.locate n) = some (index.cells.map Int.toNat) := by
    rw [Array.mapM_eq_mapM_toList, mapM_eq_some_map fun i => locate_within hindex]
    exact congrArg some (Array.ext' (by simp))
  have hwidth : t.rowVolume = s.volume := by rw [rowVolume, ht, List.tail_cons]
  have hplace : ∀ k, (index.cells.map Int.toNat).getD k 0 = (index.entry k).toNat := by
    intro k
    simp only [entry, Array.getD_eq_getD_getElem?, Array.getElem?_map]
    cases index.cells[k]? <;> rfl
  simp only [take?, ht, hplaces, rowsAt, hwidth, Option.bind_eq_bind, Option.bind_some, hplace,
    List.tail_cons]
  rfl

/-- A row of the rows at an index is what stands at the row of the index. -/
theorem row_rowsAt (t : Tensor β) {index : Tensor Int} {m : Nat} {r : Shape}
    (hindex : index.shape = m :: r) {i : Nat} (hi : i < m) :
    (t.rowsAt index).row i = t.rowsAt (index.row i) := by
  have hshape : (t.rowsAt index).shape = m :: (r ++ t.shape.tail) := by
    rw [rowsAt, shape_generate, hindex, List.cons_append]
  have hrow : (index.row i).shape = r := by rw [shape_row, hindex, List.tail_cons]
  refine ext_entry (by rw [shape_row, hshape, rowsAt, shape_generate, hrow, List.tail_cons])
    fun k hk => ?_
  have hk : k < r.volume * t.rowVolume := by
    rwa [shape_row, hshape, List.tail_cons, Shape.volume_append] at hk
  have hwidth : 0 < t.rowVolume := Nat.pos_of_mul_pos_left (Nat.zero_lt_of_lt hk)
  have hplace : k / t.rowVolume < r.volume := (Nat.div_lt_iff_lt_mul hwidth).2 hk
  have hvolume : (r ++ t.shape.tail).volume = r.volume * t.rowVolume := Shape.volume_append ..
  have hcell : i * (r.volume * t.rowVolume) + k = k + i * r.volume * t.rowVolume := by
    rw [Nat.add_comm, Nat.mul_assoc]
  rw [entry_row hshape i (by rwa [hvolume]), rowsAt, rowsAt,
    entry_generate (by
      rw [hindex, List.cons_append, Shape.volume_cons, hvolume]
      exact Shape.cell_lt hi hk),
    entry_generate (by rwa [hrow, hvolume]), entry_row hindex i hplace, hvolume, hcell,
    Nat.add_mul_div_right _ _ hwidth, Nat.add_mul_mod_self_right, Nat.add_comm (k / t.rowVolume)]

/-- Zeros are read wherever one looks among zeros. -/
theorem rowsAt_generate_const {index : Tensor Int} {n : Nat} {s : Shape} (x : β)
    (hindex : index.Within n) :
    (generate (n :: s) fun _ => x).rowsAt index = generate (index.shape ++ s) fun _ => x := by
  refine generate_congr fun k hk => entry_generate ?_
  have hk : k < index.shape.volume * s.volume := by rwa [← Shape.volume_append]
  have hwidth : 0 < s.volume := Nat.pos_of_mul_pos_left (Nat.zero_lt_of_lt hk)
  have hplace : (index.entry (k / s.volume)).toNat < n := by
    have := hindex _ ((Nat.div_lt_iff_lt_mul hwidth).2 hk)
    omega
  exact Shape.cell_lt hplace (Nat.mod_lt k hwidth)

theorem within_of_rows {index : Tensor Int} {m n : Nat} {r : Shape} (hindex : index.shape = m :: r)
    (h : ∀ i, i < m → (index.row i).Within n) : index.Within n := by
  intro k hk
  rw [hindex, Shape.volume_cons] at hk
  have hvolume : 0 < r.volume := Nat.pos_of_mul_pos_left (Nat.zero_lt_of_lt hk)
  have hmod := Nat.mod_lt k hvolume
  have hentry := h _ ((Nat.div_lt_iff_lt_mul hvolume).2 hk) (k % r.volume) (by
    rwa [shape_row, hindex, List.tail_cons])
  rwa [entry_row hindex _ hmod, Nat.mul_comm, Nat.div_add_mod] at hentry

end Tensor

namespace Block

variable {α : Type} [Scalar α]

def rowsAt (b : Block α) (index : Tensor Int) : Block α := b.lift (·.rowsAt index)

@[simp] theorem kind_rowsAt (b : Block α) (index : Tensor Int) : (b.rowsAt index).kind = b.kind := by
  cases b <;> rfl

@[simp] theorem shape_rowsAt (b : Block α) (index : Tensor Int) :
    (b.rowsAt index).shape = index.shape ++ b.shape.tail := by
  cases b <;> rfl

theorem take?_within {access : Access} {b : Block α} {n : Nat} {s : Shape} {index : Tensor Int}
    (hb : b.shape = n :: s) (hindex : index.Within n) :
    b.take? access (.ints index) = some (b.rowsAt index) := by
  cases b with
  | bools t | ints t | reals t => exact congrArg (Option.map _) (Tensor.take?_within hb hindex)

theorem rowsAt_zeros {index : Tensor Int} {n : Nat} {s : Shape} (hindex : index.Within n) :
    (zeros (n :: s) : Block α).rowsAt index = zeros (index.shape ++ s) :=
  congrArg reals (Tensor.rowsAt_generate_const Scalar.zero hindex)

/-- Indices of one shape can be stacked. -/
theorem stack?_indices {is : List (Tensor Int)} {r : Shape} (hne : is ≠ [])
    (hr : ∀ i ∈ is, i.shape = r) :
    ∃ index, stack? (is.map (ints (α := α))) = some (.ints index) ∧ index.shape = is.length :: r ∧
      ∀ i (hi : i < is.length), index.row i = is[i] := by
  have hkinds : ∀ b ∈ is.map (ints (α := α)), b.kind = .int := List.forall_mem_map.2 fun _ _ => rfl
  obtain ⟨u, hu, hkind, hshape, hrows⟩ := stack?_rows (by simpa using hne) hkinds
    (List.forall_mem_map.2 hr)
  rw [List.length_map] at hshape
  cases u with
  | ints index =>
    refine ⟨index, hu, hshape, fun i hi => ints.inj (α := α) ?_⟩
    exact (hrows i (by simpa using hi)).trans (by simp)
  | bools | reals => cases hkind

/-- What stands at stacked indices is the stack of what stands at each. -/
theorem stack?_rowsAt (b : Block α) {is : List (Tensor Int)} {index : Tensor Int} {r : Shape}
    (hne : is ≠ []) (hr : ∀ i ∈ is, i.shape = r) (hshape : index.shape = is.length :: r)
    (hrows : ∀ i (hi : i < is.length), index.row i = is[i]) :
    stack? (is.map b.rowsAt) = some (b.rowsAt index) := by
  have hkinds : ∀ c ∈ is.map b.rowsAt, c.kind = b.kind :=
    List.forall_mem_map.2 fun i _ => kind_rowsAt b i
  have hshapes : ∀ c ∈ is.map b.rowsAt, c.shape = r ++ b.shape.tail :=
    List.forall_mem_map.2 fun i hi => by rw [shape_rowsAt, hr i hi]
  obtain ⟨u, hu, hkind, hushape, hurows⟩ := stack?_rows (by simpa using hne) hkinds hshapes
  rw [hu]
  rw [List.length_map] at hushape
  refine congrArg some (eq_of_rows (by simp [hkind]) hushape (by simp [hshape]) fun i hi => ?_)
  rw [hurows i (by simpa using hi), List.getElem_map, ← hrows i hi]
  cases b with
  | bools t => exact congrArg bools (Tensor.row_rowsAt t hshape hi).symm
  | ints t => exact congrArg ints (Tensor.row_rowsAt t hshape hi).symm
  | reals t => exact congrArg reals (Tensor.row_rowsAt t hshape hi).symm

end Block

end LeastSquares
