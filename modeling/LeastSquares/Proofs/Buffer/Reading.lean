import LeastSquares.Proofs.Array.Index
import LeastSquares.Proofs.Buffer.Rows
import LeastSquares.Catalogue

/-!
# Reading through handles

Where rows are stored, handles stacked together read the stack of what they read one by one, and rows
of zeros read as zeros of the shape that is asked for. Where nothing is stored, one zero vector is
read, however many places the handle names: this stands for rows of zeros at a single handle only.
-/

namespace LeastSquares

/-- The item is the index of a handle, single or stacked: it names places among `n`. -/
structure Item.Names {α : Type} [Scalar α] (x : Item α) (n : Nat) (index : Tensor Int) : Prop where
  places : Residence.device.places x = .ok (.ints index)
  within : index.Within n

/-- A single handle. -/
theorem Item.names_int {α : Type} [Scalar α] {i n : Nat} (hi : i < n)
    (hword : (i : Int) ≤ Int64.maxValue.toInt) : (Item.int i : Item α).Names n (.scalar i) where
  places := by
    have hword : Int64.minValue.toInt ≤ (i : Int) ∧ (i : Int) ≤ Int64.maxValue.toInt :=
      ⟨le_trans (by decide) (Int.natCast_nonneg i), hword⟩
    simp [Residence.places, Item.block?, hword, Block.int]
  within k hk := by
    obtain rfl : k = 0 := by simpa [Tensor.scalar] using hk
    exact ⟨Int.natCast_nonneg i, Int.ofNat_lt.2 hi⟩

/-- What names places on the device names them anywhere. -/
theorem Residence.places_of_device {α : Type} [Scalar α] {x : Item α} {b : Block α}
    (h : device.places x = .ok b) (place : Residence) : place.places x = .ok b := by
  cases place with
  | device => exact h
  | host =>
    cases x with
    | array _ _ | int _ => exact (congrArg fitting (block?_of_places h)).trans rfl
    | bool _ | real _ | text _ => cases h

namespace Vectors

variable {C α : Type} [DecidableEq C] [Scalar α] {v : Vectors C α} {T : VariableType} {n : Nat}
  {xs : List (Item α)} {is : List (Tensor Int)} {r : Shape}

/-- The vectors with `n` rows of zeros for a type. -/
def zeroed (v : Vectors C α) (T : VariableType) (n : Nat) : Vectors C α :=
  ⟨v.buffers.insert (.type T) (.tangentZeros T n)⟩

/-- What is stored for a type, if anything, is an array of `n` rows. -/
def HoldsRows (v : Vectors C α) (T : VariableType) (n : Nat) : Prop :=
  ∀ stack, (v.buffer (.type T)).stack = some stack →
    ∃ (rows : Block α) (s : Shape), stack = .values (.ofBlock rows) ∧ rows.shape = n :: s

/-! ## One handle -/

theorem read_of_names {rows : Block α} {s : Shape}
    (hstack : (v.buffer (.type T)).stack = some (.values (.ofBlock rows)))
    (hrows : rows.shape = n :: s) {x : Item α} {index : Tensor Int} (hx : x.Names n index) :
    v.read ⟨T, x⟩ = .ok ⟨.ofBlock (rows.rowsAt index), (v.buffer (.type T)).place.access⟩ :=
  read_of_rows hstack (Residence.places_of_device hx.places _) (Block.take?_within hrows hx.within)

theorem read_zeroed (v : Vectors C α) {x : Item α} {index : Tensor Int} (hx : x.Names n index) :
    (v.zeroed T n).read ⟨T, x⟩ = .ok ⟨.ofBlock (.zeros (index.shape ++ [T.tangentDim])), .clamped⟩ := by
  have hbuffer : (v.zeroed T n).buffer (.type T) = .tangentZeros T n :=
    (Buffers.buffer_insert ..).trans (if_pos rfl)
  have hstack : ((v.zeroed T n).buffer (.type T)).stack =
      some (.values (.ofBlock (.zeros [n, T.tangentDim]))) := by
    rw [hbuffer]
    rfl
  have hread := read_of_names hstack rfl hx
  rwa [Block.rowsAt_zeros hx.within, hbuffer] at hread

omit [Scalar α] in
/-- Arrays of different shapes are different readings. -/
theorem shape_of_read_eq {b c : Block α} {access access' : Access}
    (h : (.ok ⟨.ofBlock b, access⟩ : Checked (Found α)) = .ok ⟨.ofBlock c, access'⟩) :
    b.shape = c.shape := by
  simp only [Value.ofBlock, Except.ok.injEq, Found.mk.injEq, Tree.leaf.injEq] at h
  rw [h.1]

/-! ## Handles stacked together -/

theorem names_stacked {index : Tensor Int} (hxs : List.Forall₂ (Item.Names · n ·) xs is)
    (hshape : index.shape = is.length :: r)
    (hrows : ∀ i (hi : i < is.length), index.row i = is[i]) :
    (Item.array .device (.ints index) : Item α).Names n index where
  places := rfl
  within := Tensor.within_of_rows hshape fun i hi => by
    rw [hrows i hi]
    exact (hxs.get (hxs.length_eq ▸ hi) hi).within

/-- The rows at handles stacked together are the stack of the rows at each. -/
theorem read_stacked {rows : Block α} {s : Shape}
    (hstack : (v.buffer (.type T)).stack = some (.values (.ofBlock rows)))
    (hshape : rows.shape = n :: s) (hxs : List.Forall₂ (Item.Names · n ·) xs is) (hne : is ≠ [])
    (hr : ∀ i ∈ is, i.shape = r) {index : Tensor Int} (hindex : index.shape = is.length :: r)
    (hrows : ∀ i (hi : i < is.length), index.row i = is[i]) :
    List.Forall₂ (fun x c => v.read ⟨T, x⟩ = .ok ⟨.ofBlock c, (v.buffer (.type T)).place.access⟩) xs
        (is.map rows.rowsAt) ∧
      Block.stack? (is.map rows.rowsAt) = some (rows.rowsAt index) ∧
      v.read ⟨T, .array .device (.ints index)⟩ =
        .ok ⟨.ofBlock (rows.rowsAt index), (v.buffer (.type T)).place.access⟩ :=
  ⟨List.forall₂_map_right_iff.2 (hxs.imp fun _ _ hx => read_of_names hstack hshape hx),
    rows.stack?_rowsAt hne hr hindex hrows,
    read_of_names hstack hshape (names_stacked hxs hindex hrows)⟩

/-- Where nothing is stored, no handle reads the stack of what several handles read. -/
theorem read_stacked_of_isEmpty (hempty : (v.buffer (.type T)).isEmpty = true) (hne : xs ≠ [])
    (x : Item α) :
    ∃ reads found,
      List.Forall₂ (fun x c => v.read ⟨T, x⟩ = .ok ⟨.ofBlock c, .clamped⟩) xs reads ∧
      Block.stack? reads = some found ∧ v.read ⟨T, x⟩ ≠ .ok ⟨.ofBlock found, .clamped⟩ := by
  have hkinds : ∀ b ∈ xs.map fun _ => (.zeros [T.tangentDim] : Block α), b.kind = .real :=
    List.forall_mem_map.2 fun _ _ => rfl
  obtain ⟨found, hfound, -, hshape, -⟩ := Block.stack?_rows (by simpa using hne) hkinds
    (List.forall_mem_map.2 fun _ _ => rfl)
  refine ⟨_, found, ?_, hfound, fun h => ?_⟩
  · exact List.forall₂_map_right_iff.2 (List.forall₂_same.2 fun x _ => read_of_isEmpty hempty)
  · have hsame := shape_of_read_eq ((read_of_isEmpty hempty).symm.trans h)
    have hlengths := congrArg List.length (hsame.trans hshape)
    simp [Block.zeros, Block.full, Block.shape] at hlengths

/-- A handle into a missing or empty buffer reads one zero vector, as it does from rows of zeros just
where it is single. Handles of one shape stacked together read the stack of what they read one by
one just where rows are stored. -/
theorem reads_rows (hv : v.HoldsRows T n) :
    ((v.buffer (.type T)).isEmpty = true → ∀ x index, Item.Names x n index →
      v.read ⟨T, x⟩ = .ok ⟨.ofBlock (.zeros [T.tangentDim]), .clamped⟩ ∧
      (v.zeroed T n).read ⟨T, x⟩ =
        .ok ⟨.ofBlock (.zeros (index.shape ++ [T.tangentDim])), .clamped⟩ ∧
      (v.read ⟨T, x⟩ = (v.zeroed T n).read ⟨T, x⟩ ↔ index.shape = [])) ∧
    ∀ xs is r, xs ≠ [] → List.Forall₂ (Item.Names · n ·) xs is → (∀ i ∈ is, i.shape = r) →
      ∃ index access reads found, Block.stack? (is.map (.ints (α := α))) = some (.ints index) ∧
        List.Forall₂ (fun x c => v.read ⟨T, x⟩ = .ok ⟨.ofBlock c, access⟩) xs reads ∧
        Block.stack? reads = some found ∧
        (v.read ⟨T, .array .device (.ints index)⟩ = .ok ⟨.ofBlock found, access⟩ ↔
          (v.buffer (.type T)).isEmpty = false) := by
  refine ⟨fun hempty x index hx => ?_, fun xs is r hne hxs hr => ?_⟩
  · have hread : v.read ⟨T, x⟩ = _ := read_of_isEmpty hempty
    refine ⟨hread, v.read_zeroed hx, ?_⟩
    rw [hread, v.read_zeroed hx]
    constructor
    · intro h
      have hlengths := congrArg List.length (shape_of_read_eq h)
      simpa [Block.zeros, Block.full, Block.shape] using hlengths
    · intro h
      rw [h, List.nil_append]
  · have hne' : is ≠ [] := by
      rintro rfl
      exact hne (List.forall₂_nil_right_iff.1 hxs)
    obtain ⟨index, hindex, hshape, hrows⟩ := Block.stack?_indices (α := α) hne' hr
    cases hstack : (v.buffer (.type T)).stack with
    | none =>
      have hempty : (v.buffer (.type T)).isEmpty = true := by rw [Buffer.isEmpty, hstack]; rfl
      obtain ⟨reads, found, hreads, hfound, hdiffer⟩ :=
        read_stacked_of_isEmpty hempty hne (.array .device (.ints index))
      exact ⟨index, _, reads, found, hindex, hreads, hfound, by simp [hdiffer, hempty]⟩
    | some stack =>
      obtain ⟨rows, s, rfl, hs⟩ := hv stack hstack
      have hempty := Buffer.isEmpty_of_stack hstack
      obtain ⟨hreads, hfound, hread⟩ := read_stacked hstack hs hxs hne' hr hshape hrows
      exact ⟨index, _, _, _, hindex, hreads, hfound, by simp [hread, hempty]⟩

/-! ## At the types of the catalogue -/

/-- Three numbers, and an empty buffer for vectors of the plane. -/
def scant : Vectors Catalogue ℚ :=
  ⟨.ofList [(.type (.real 1), .ofVectors (.type (.real 1)) (.reals (.generate [3, 1] fun k => k + 1))),
    (.type (.real 2), .empty)]⟩

/-- The third number and the first are read together as one by one. No vector of the plane is there:
the second reads as from zeros, the first two together do not. -/
theorem scant_reads :
    (∃ index access reads found,
      Block.stack? [.ints (.scalar 2), .ints (.scalar 0)] = some (.ints index : Block ℚ) ∧
      List.Forall₂ (fun x c => scant.read ⟨.real 1, x⟩ = .ok ⟨.ofBlock c, access⟩)
        [.int 2, .int 0] reads ∧
      Block.stack? reads = some found ∧
      scant.read ⟨.real 1, .array .device (.ints index)⟩ = .ok ⟨.ofBlock found, access⟩) ∧
    scant.read ⟨.real 2, .int 1⟩ = (scant.zeroed (.real 2) 2).read ⟨.real 2, .int 1⟩ ∧
    scant.read ⟨.real 2, .array .device (.ints (.vector #[0, 1]))⟩ ≠
      (scant.zeroed (.real 2) 2).read ⟨.real 2, .array .device (.ints (.vector #[0, 1]))⟩ := by
  have hpair : (Item.array .device (.ints (.vector #[0, 1])) : Item ℚ).Names 2 (.vector #[0, 1]) :=
    ⟨rfl, by decide⟩
  have hnumbers : scant.HoldsRows (.real 1) 3 := fun stack h => by
    cases h
    exact ⟨_, _, rfl, rfl⟩
  have hplane : scant.HoldsRows (.real 2) 2 := fun stack h => by cases h
  obtain ⟨index, access, reads, found, hindex, hreads, hfound, hread⟩ :=
    (reads_rows hnumbers).2 [.int 2, .int 0] [.scalar 2, .scalar 0] [] (by simp)
      (.cons (Item.names_int (i := 2) (by omega) (by decide))
        (.cons (Item.names_int (i := 0) (by omega) (by decide)) .nil)) (by decide)
  refine ⟨⟨index, access, reads, found, hindex, hreads, hfound, hread.2 rfl⟩, ?_, ?_⟩
  · exact ((reads_rows hplane).1 rfl _ _ (Item.names_int (i := 1) (by omega) (by decide))).2.2.2 rfl
  · exact mt ((reads_rows hplane).1 rfl _ _ hpair).2.2.1 (by decide)

/-- Where nothing is stored, two handles together do not read as from two rows of zeros. -/
theorem not_read_zeroed : ¬ ∀ (v : Vectors Catalogue ℚ) (T : VariableType) (n : Nat) (x : Item ℚ)
    (index : Tensor Int), (v.buffer (.type T)).isEmpty = true → x.Names n index →
      v.read ⟨T, x⟩ = (v.zeroed T n).read ⟨T, x⟩ := by
  intro h
  have hpair : (Item.array .device (.ints (.vector #[0, 1])) : Item ℚ).Names 2 (.vector #[0, 1]) :=
    ⟨rfl, by decide⟩
  have hsame := h scant (.real 2) 2 _ _ rfl hpair
  rw [read_of_isEmpty rfl, read_zeroed _ hpair] at hsame
  exact absurd (congrArg List.length (shape_of_read_eq hsame)) (by decide)

end Vectors

end LeastSquares
