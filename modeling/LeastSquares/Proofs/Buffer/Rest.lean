import LeastSquares.Proofs.Buffer.Store
import LeastSquares.Proofs.Manifold.Rest

/-!
# Stores at rest

A value whose type rests stays where it is along the zero vector. So in a move of a store the rows with
zero coordinates keep their values, and values without a tangent space keep their buffers. A store that
is moved along zero vectors alone reads as it did before.
-/

namespace LeastSquares

namespace VariableType

/-- A value of the type that is moved along the zero vector stays. -/
def Rests (α : Type) [Scalar α] (t : VariableType) : Prop :=
  ∀ (x : Value α) (d : Tensor α), x.IsReal t.shapes → d.shape = [t.tangentDim] →
    (∀ c, c < t.tangentDim → d.entry c = Scalar.zero) → t.retract x (.ofBlock (.reals d)) = .ok x

variable {α : Type} [LinearOrder α] [ExactScalar α]

/-- In exact arithmetic values of Euclidean types rest. -/
theorem rests_of_isEuclidean {t : VariableType} (ht : t.isEuclidean = true) : t.Rests α := by
  intro x d hx hd hzero
  obtain ⟨y, hy, hreal, hcoordinate⟩ := retract_euclidean ht hx hd
  rw [hy, hreal.eq_of_coordinates hx fun c hc => ?_]
  have hc : c < t.tangentDim := (tangentDim_eq ht).symm ▸ hc
  rw [hcoordinate c hc, hzero c hc, Scalar.zero_eq, add_zero]

/-- With the sine and cosine of zero every type with a tangent space rests. -/
theorem rests_of_exactAngle (h : ExactAngle α) {t : VariableType} (ht : t.isDifferentiable = true) :
    t.Rests α := by
  cases t with
  | lie g =>
    intro x d hx hd hzero
    obtain ⟨a, rfl, ha⟩ : ∃ a, x = .ofGroup g a ∧ a.shape = [g.paramDim] := hx.group
    have hmoved : g.moved? a d = some a :=
      g.moved?_zero h ha hd fun k hk => (hzero k hk).trans Scalar.zero_eq
    show fitting ((g.moved? a d).map (Value.ofGroup g)) = _
    rw [hmoved]
    rfl
  | discrete => cases ht
  | real n => exact rests_of_isEuclidean rfl
  | euclidean name pattern => exact rests_of_isEuclidean rfl

end VariableType

namespace Store

section Reading

variable {C α : Type} [DecidableEq C] [Scalar α] {s s' : Store C α}

/-- What a stack reads depends on the keys and the values under them. -/
theorem bulk_eq (hkeys : s'.buffers.keys = s.buffers.keys)
    (hstack : ∀ key, (s'.buffer key).stack = (s.buffer key).stack) : s'.bulk = s.bulk := by
  funext a
  have hcontains : s'.buffers.onDevice.contains (.type a.type) =
      s.buffers.onDevice.contains (.type a.type) := by
    rw [Bool.eq_iff_iff, Table.contains_iff, Table.contains_iff, Buffers.onDevice, Buffers.onDevice,
      Table.keys_map_eq, Table.keys_map_eq, hkeys]
  have hstack : (s'.buffers.buffer (.type a.type)).stack = (s.buffers.buffer (.type a.type)).stack :=
    hstack _
  unfold bulk read checkedBuffer
  simp only [buffer, hcontains, Vectors.buffer_onDevice, Buffer.get, Buffer.count, hstack]
  cases a.index <;> simp only [bind_assoc, pure_bind]

end Reading

section Keeping

variable {C α : Type} [DecidableEq C] {s s' : Store C α}

/-- Another store with the same keys in the same order, with the same contents and counts, and with the
same values where there is no tangent space. -/
structure Keeps (s s' : Store C α) : Prop where
  wellFormed : s'.WellFormed
  layout : s'.layout = s.layout
  keys : s'.buffers.keys = s.buffers.keys
  content : ∀ key, (s'.buffer key).content = (s.buffer key).content
  count : ∀ key, (s'.buffer key).count = (s.buffer key).count
  fixed : ∀ key, key.isDifferentiable = false → s'.buffer key = s.buffer key

theorem WellFormed.keeps (hs : s.WellFormed) : s.Keeps s :=
  ⟨hs, rfl, rfl, fun _ => rfl, fun _ => rfl, fun _ _ => rfl⟩

theorem Keeps.trans {s'' : Store C α} (h : s.Keeps s') (h' : s'.Keeps s'') : s.Keeps s'' where
  wellFormed := h'.wellFormed
  layout := h'.layout.trans h.layout
  keys := h'.keys.trans h.keys
  content key := (h'.content key).trans (h.content key)
  count key := (h'.count key).trans (h.count key)
  fixed key hkey := (h'.fixed key hkey).trans (h.fixed key hkey)

theorem Keeps.tangents (h : s.Keeps s') : s'.tangents = s.tangents := by
  simp only [Store.tangents, h.layout]

end Keeping

variable {C α : Type} [DecidableEq C] [LinearOrder α] [ExactScalar α] {s s' : Store C α}
  {d : Vectors C α}

/-- The types of the store that have a tangent space rest. -/
def Rests (s : Store C α) : Prop := ∀ T, Key.type T ∈ s.tangents.keys → T.Rests α

/-- A row with zero coordinates keeps its value. -/
theorem WellFormed.row_moved (hs : s.WellFormed) (hrests : s.Rests) (hd : d.Fits s.tangents)
    (h : s.moved d.buffers = .ok s') {T : VariableType} (hT : Key.type T ∈ s.layout.keys) {i : Nat}
    (hi : i < s.layout.rows (.type T))
    (hzero : ∀ c, c < T.tangentDim → d.coordinate (.type T, i * T.tangentDim + c) = 0) :
    (s'.valuesOf T).row i = (s.valuesOf T).row i := by
  have hstores := hs.stores hT
  rcases (moveAlong_spec d.buffers.distinct (moveAlong_of_moved h)).2 (.type T) with
    ⟨step, hmem, hnonempty, hstep⟩ | ⟨-, hsame⟩
  · have hdiff : T.isDifferentiable = true := (movable_of_movedBuffer hstep).1
    have htangent : Key.type T ∈ s.tangents.keys := mem_tangents.2 ⟨hT, hdiff⟩
    have hbuffer : d.buffer (.type T) = step :=
      Buffers.buffer_of_get? (Table.get?_eq_some_iff.2 hmem)
    obtain ⟨t, ht, hshape⟩ := (hd _ htangent).resolve_left (by rw [hbuffer, hnonempty]; simp)
    have hshape : t.shape = [s.layout.rows (.type T), T.tangentDim] := hshape
    obtain ⟨w, hw, hrows⟩ := movedBuffer_of_stores hstores (hbuffer ▸ ht) hshape hstep
    have hstay := hrests T htangent _ (t.row i) (hstores.row_isReal hdiff i)
      (by rw [Tensor.shape_row, hshape]; rfl) fun c hc => by
        rw [Tensor.entry_row hshape i (by simpa using hc), Shape.volume_row, Scalar.zero_eq,
          ← hzero c hc, Vectors.coordinate, ht.coordinate]
        rw [hshape, Shape.volume_matrix]
        exact Shape.cell_lt hi hc
    rw [valuesOf, hw.stack]
    exact Except.ok.inj ((hrows i hi).symm.trans hstay)
  · rw [valuesOf, valuesOf, hsame]

/-- A store that is moved along zero vectors reads as it did before. -/
theorem WellFormed.bulk_moved_zero (hs : s.WellFormed) (hrests : s.Rests) (hd : d.Fits s.tangents)
    (hzero : ∀ u ∈ s.tangents.cells, d.coordinate u = 0) (h : s.moved d.buffers = .ok s') :
    s'.bulk = s.bulk := by
  have hkeys := (moveAlong_spec d.buffers.distinct (moveAlong_of_moved h)).1
  refine bulk_eq hkeys fun key => ?_
  by_cases hkey : key ∈ s.buffers.keys
  · obtain ⟨b, hb⟩ := Table.mem_keys_iff.1 hkey
    obtain ⟨T, -, -, rfl, -⟩ := hs key b hb
    have hT : Key.type T ∈ s.layout.keys := List.mem_toFinset.2 hkey
    cases hdiff : T.isDifferentiable with
    | false => rw [buffer_moved h (show Key.isDifferentiable (.type T) = false from hdiff)]
    | true =>
      obtain ⟨w, hw, -⟩ := hs.moved_stores hd h hT
      have hold := hs.stores hT
      have hvalues : s'.valuesOf T = w := by rw [valuesOf, hw.stack]
      have hsame : w = s.valuesOf T := Value.eq_of_rows (hw.typed hdiff) (hold.typed hdiff)
        fun i hi => hvalues ▸ hs.row_moved hrests hd h hT hi fun c hc => hzero _
          (Layout.mem_cells.2 ⟨mem_tangents.2 ⟨hT, hdiff⟩, Shape.cell_lt hi hc⟩)
      rw [hw.stack, hold.stack, hsame]
  · rw [show s'.buffer key = .empty from Buffers.buffer_of_not_mem (hkeys ▸ hkey),
      show s.buffer key = .empty from Buffers.buffer_of_not_mem hkey]

theorem Keeps.rests (h : s.Keeps s') (hrests : s.Rests) : s'.Rests := by
  intro T hT
  rw [h.tangents] at hT
  exact hrests T hT

theorem WellFormed.keeps_moved (hs : s.WellFormed) (hd : d.Fits s.tangents)
    (h : s.moved d.buffers = .ok s') : s.Keeps s' := by
  have hkeys := (moveAlong_spec d.buffers.distinct (moveAlong_of_moved h)).1
  obtain ⟨hwell, hlayout⟩ := hs.moved hd h
  have hsame : ∀ key, (s'.buffer key).content = (s.buffer key).content ∧
      (s'.buffer key).count = (s.buffer key).count := by
    intro key
    by_cases hkey : key ∈ s.buffers.keys
    · obtain ⟨b, hb⟩ := Table.mem_keys_iff.1 hkey
      obtain ⟨T, -, -, rfl, -⟩ := hs key b hb
      have hT : Key.type T ∈ s.layout.keys := List.mem_toFinset.2 hkey
      obtain ⟨w, hw, -⟩ := hs.moved_stores hd h hT
      have hold := hs.stores hT
      exact ⟨hw.content.trans hold.content.symm, hw.count.trans hold.count.symm⟩
    · rw [show s'.buffer key = .empty from Buffers.buffer_of_not_mem (hkeys ▸ hkey),
        show s.buffer key = .empty from Buffers.buffer_of_not_mem hkey]
      exact ⟨rfl, rfl⟩
  exact ⟨hwell, hlayout, hkeys, fun key => (hsame key).1, fun key => (hsame key).2,
    fun _ => buffer_moved h⟩

end Store

end LeastSquares
