import LeastSquares.Proofs.Array.Block
import LeastSquares.Proofs.Buffer.Table
import LeastSquares.Buffer.Vectors

/-!
# Coordinates of vectors

A collection of vectors is read as a function from cells to scalars: a cell is a key and a place in
the array under it, and whatever is missing or empty reads as zero. A layout says how many rows and
columns stand under which keys. A collection fits a layout if under each of its keys there is an
array of that shape, or none.
-/

namespace LeastSquares

/-- Under each of some keys, so many rows of so many coordinates. -/
structure Layout (C : Type) where
  keys : Finset (Key C)
  rows : Key C → Nat
  width : Key C → Nat

namespace Layout

variable {C : Type} [DecidableEq C]

/-- The number of coordinates under a key. -/
def size (L : Layout C) (key : Key C) : Nat := L.rows key * L.width key

omit [DecidableEq C] in
theorem mk_injective (key : Key C) : Function.Injective (Prod.mk key : Nat → Key C × Nat) :=
  fun _ _ h => congrArg Prod.snd h

/-- All coordinates of a layout. -/
def cells (L : Layout C) : Finset (Key C × Nat) :=
  L.keys.biUnion fun key => (Finset.range (L.size key)).map ⟨Prod.mk key, mk_injective key⟩

theorem mem_cells {L : Layout C} {u : Key C × Nat} :
    u ∈ L.cells ↔ u.1 ∈ L.keys ∧ u.2 < L.size u.1 := by
  obtain ⟨key, k⟩ := u
  simp only [cells, Finset.mem_biUnion, Finset.mem_map, Finset.mem_range,
    Function.Embedding.coeFn_mk, Prod.mk.injEq]
  constructor
  · rintro ⟨_, hkey, _, hk, rfl, rfl⟩
    exact ⟨hkey, hk⟩
  · rintro ⟨hkey, hk⟩
    exact ⟨key, hkey, k, hk, rfl, rfl⟩

theorem sum_cells {α : Type} [AddCommMonoid α] (L : Layout C) (f : Key C × Nat → α) :
    ∑ u ∈ L.cells, f u = ∑ key ∈ L.keys, ∑ k ∈ Finset.range (L.size key), f (key, k) := by
  rw [cells, Finset.sum_biUnion]
  · simp
  · intro key _ key' _ hne
    rw [Function.onFun, Finset.disjoint_left]
    intro u hu hu'
    obtain ⟨k, -, rfl⟩ := Finset.mem_map.1 hu
    obtain ⟨k', -, h⟩ := Finset.mem_map.1 hu'
    exact hne (congrArg Prod.fst h).symm

/-- A sum over all coordinates, in the order of a list of the keys. -/
theorem sum_cells_of_keys {α : Type} [AddCommMonoid α] {L : Layout C} {l : List (Key C)}
    (hkeys : L.keys = l.toFinset) (hl : l.Nodup) (f : Key C × Nat → α) :
    ∑ u ∈ L.cells, f u = (l.map fun key => ∑ k ∈ Finset.range (L.size key), f (key, k)).sum := by
  rw [sum_cells, hkeys, List.sum_toFinset _ hl]

end Layout

namespace Buffer

variable {C α : Type} [LinearOrder α] [ExactScalar α]

/-- The buffer holds vectors of a key, as the rows of one array. -/
def Holds (b : Buffer C α) (key : Key C) (t : Tensor α) : Prop :=
  b.content = some (.vectors key) ∧ b.stack = some (.values (.ofBlock (.reals t)))

/-- The buffer holds vectors of a key in an array of so many rows and columns, or nothing. -/
def Shaped (b : Buffer C α) (key : Key C) (rows width : Nat) : Prop :=
  b.isEmpty = true ∨ ∃ t, b.Holds key t ∧ t.shape = [rows, width]

/-- Coordinate `k` of all vectors laid one after another; zero where there is none. -/
def coordinate (b : Buffer C α) (k : Nat) : α :=
  match b.stack with
  | some (.values v) => ((v.leaves.flatMap fun leaf => leaf.toReals.cells.toList)[k]?).getD 0
  | _ => 0

omit [LinearOrder α] [ExactScalar α] in
theorem stack_eq_none {b : Buffer C α} (h : b.isEmpty = true) : b.stack = none :=
  Option.isNone_iff_eq_none.1 h

omit [LinearOrder α] [ExactScalar α] in
theorem Shaped.of_isEmpty {b : Buffer C α} (h : b.isEmpty = true) (key : Key C)
    (rows width : Nat) : b.Shaped key rows width := .inl h

theorem coordinate_of_isEmpty {b : Buffer C α} (h : b.isEmpty = true) (k : Nat) :
    b.coordinate k = 0 := by
  rw [coordinate, stack_eq_none h]

omit [LinearOrder α] [ExactScalar α] in
theorem isEmpty_of_stack {b : Buffer C α} {stack : Stack C α} (h : b.stack = some stack) :
    b.isEmpty = false := by
  rw [Buffer.isEmpty, h]
  rfl

omit [LinearOrder α] [ExactScalar α] in
theorem rows_of_stack [Scalar α] {b : Buffer C α} {rows : Block α}
    (h : b.stack = some (.values (.ofBlock rows))) : b.rows = .ok rows := by
  rw [Buffer.rows, h]
  rfl

omit [LinearOrder α] in
theorem Holds.isEmpty {b : Buffer C α} {key : Key C} {t : Tensor α} (h : b.Holds key t) :
    b.isEmpty = false := isEmpty_of_stack h.2

theorem Holds.coordinate {b : Buffer C α} {key : Key C} {t : Tensor α} (h : b.Holds key t)
    {k : Nat} (hk : k < t.shape.volume) : b.coordinate k = t.entry k := by
  have hsize : k < t.cells.size := t.size_eq ▸ hk
  rw [Buffer.coordinate, h.2]
  simp [Value.ofBlock, Tree.leaves, Tensor.entry, Array.getD, hsize]

theorem Holds.coordinate_outside {b : Buffer C α} {key : Key C} {t : Tensor α}
    (h : b.Holds key t) {k : Nat} (hk : t.shape.volume ≤ k) : b.coordinate k = 0 := by
  have hsize : t.cells.size ≤ k := t.size_eq ▸ hk
  rw [Buffer.coordinate, h.2]
  simp [Value.ofBlock, Tree.leaves, hsize]

end Buffer

namespace Buffers

variable {C α : Type} [DecidableEq C]

theorem buffer_of_get? {t : Buffers C α} {key : Key C} {b : Buffer C α}
    (h : t.get? key = some b) : t.buffer key = b := by
  rw [buffer, h]
  rfl

theorem buffer_of_not_mem {t : Buffers C α} {key : Key C} (h : key ∉ t.keys) :
    t.buffer key = .empty := by
  rw [buffer, Table.get?_eq_none_iff.2 h]
  rfl

theorem buffer_insert (t : Buffers C α) (key k : Key C) (b : Buffer C α) :
    buffer (t.insert key b) k = if k = key then b else t.buffer k := by
  rw [buffer, Table.get?_insert]
  by_cases h : k = key
  · simp [h]
  · simp [h, buffer]

end Buffers

namespace Vectors

variable {C α : Type} [DecidableEq C] [LinearOrder α] [ExactScalar α]

/-- The coordinate at a cell; zero where the array is missing or empty. -/
def coordinate (v : Vectors C α) (u : Key C × Nat) : α := (v.buffer u.1).coordinate u.2

/-- Under each key of a layout there is an array of its shape, or none. -/
def Fits (v : Vectors C α) (L : Layout C) : Prop :=
  ∀ key ∈ L.keys, (v.buffer key).Shaped key (L.rows key) (L.width key)

/-- The collection fits a layout and holds nothing else. -/
structure Within (v : Vectors C α) (L : Layout C) : Prop where
  fits : v.Fits L
  outside : ∀ key ∉ L.keys, (v.buffer key).isEmpty = true

omit [LinearOrder α] [ExactScalar α] in
theorem Within.shaped {v : Vectors C α} {L : Layout C} (h : v.Within L) (key : Key C) :
    (v.buffer key).Shaped key (L.rows key) (L.width key) := by
  by_cases hkey : key ∈ L.keys
  · exact h.fits key hkey
  · exact .of_isEmpty (h.outside key hkey) ..

theorem Within.coordinate_eq_zero {v : Vectors C α} {L : Layout C} (h : v.Within L)
    {u : Key C × Nat} (hu : u ∉ L.cells) : v.coordinate u = 0 := by
  obtain ⟨key, k⟩ := u
  rcases h.shaped key with he | ⟨t, ht, hshape⟩
  · exact Buffer.coordinate_of_isEmpty he k
  · by_cases hkey : key ∈ L.keys
    · refine ht.coordinate_outside ?_
      have hsize : ¬ k < L.size key := fun hk => hu (Layout.mem_cells.2 ⟨hkey, hk⟩)
      simpa [hshape, Layout.size] using hsize
    · exact Buffer.coordinate_of_isEmpty (h.outside key hkey) k

end Vectors

end LeastSquares
