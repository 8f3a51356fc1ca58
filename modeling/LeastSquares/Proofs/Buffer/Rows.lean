import LeastSquares.Proofs.Buffer.Coordinates
import LeastSquares.Graph.Bulk

/-!
# Reading and adding rows

A stack of factors reads vectors at its handles, where what is missing or empty reads as zeros, and
adds vectors into a collection that has an array for every key. Both are told in coordinates.
-/

namespace LeastSquares

theorem target_lt {n : Nat} {i : Int} {place : Nat} (h : target n i = some place) : place < n := by
  unfold target Access.locate at h
  simp only [Option.ite_none_right_eq_some, Option.some.injEq] at h
  omega

/-- A place that is not outside is found in either way. -/
theorem Access.locate_of_target {n : Nat} {i : Int} {place : Nat} (h : target n i = some place) :
    Access.clamped.locate n i = some place := by
  unfold target at h
  unfold Access.locate at h ⊢
  simp only [Option.ite_none_right_eq_some, Option.some.injEq] at h
  simp only [Option.ite_none_left_eq_some, Option.some.injEq]
  omega

theorem Residence.block?_of_places {α : Type} [Scalar α] {place : Residence} {i : Item α} {b : Block α}
    (h : place.places i = .ok b) : i.block? = some b := by
  unfold places at h
  split at h <;> first | exact fitting_eq_ok h | cases h

namespace Vectors

variable {C α : Type} [DecidableEq C] [LinearOrder α] [ExactScalar α]

omit [LinearOrder α] [ExactScalar α] in
theorem buffer_onDevice (t : Buffers C α) (key : Key C) :
    t.onDevice.buffer key = { t.buffer key with place := .device } := by
  unfold Buffers.buffer Buffers.onDevice
  rw [Table.get?_map]
  cases t.get? key with
  | none => rfl
  | some b => rfl

omit [LinearOrder α] [ExactScalar α] in
theorem read_of_isEmpty [Scalar α] {v : Vectors C α} {h : Handle (Item α)}
    (he : (v.buffer (.type h.type)).isEmpty = true) :
    v.read h = .ok ⟨.ofBlock (.zeros [h.type.tangentDim]), .clamped⟩ := by
  unfold read
  simp [he]

omit [LinearOrder α] [ExactScalar α] in
/-- An array of rows is read at the places that an index names. -/
theorem read_of_rows [Scalar α] {v : Vectors C α} {T : VariableType} {rows index found : Block α}
    {x : Item α} (hstack : (v.buffer (.type T)).stack = some (.values (.ofBlock rows)))
    (hplaces : (v.buffer (.type T)).place.places x = .ok index)
    (hfound : rows.take? (v.buffer (.type T)).place.access index = some found) :
    v.read ⟨T, x⟩ = .ok ⟨.ofBlock found, (v.buffer (.type T)).place.access⟩ := by
  have hempty := Buffer.isEmpty_of_stack hstack
  have hrows := Buffer.rows_of_stack hstack
  unfold read
  simp [hempty, hstack, Value.ofBlock, hrows, hplaces, hfound]

/-- Reading the vector of one factor of a stack. Missing rows read as zeros. -/
theorem bulk_of_shaped {x : Vectors C α} {T : VariableType} {rows : Nat}
    (hx : (x.buffer (.type T)).Shaped (.type T) rows T.tangentDim) {index : Block α} {i : Int}
    (hindex : index.Indexes i) {place : Nat} (hplace : target rows i = some place) :
    ∃ b, x.bulk (Handle.inStack ⟨T, index⟩) = .ok ⟨.ofBlock b, .clamped⟩ ∧
      b.Tabulates [T.tangentDim] fun c =>
        x.coordinate (.type T, place * T.tangentDim + c) := by
  obtain ⟨idx, rfl, hshape, rfl⟩ := hindex
  have hbuffer := buffer_onDevice x.buffers (.type T)
  rcases hx with he | ⟨t, ht, htshape⟩
  · refine ⟨.zeros [T.tangentDim], read_of_isEmpty ?_, _, rfl, rfl, fun c hc => ?_⟩
    · show Buffer.isEmpty (x.buffers.onDevice.buffer (.type T)) = true
      rw [hbuffer]
      exact he
    · rw [Tensor.entry_generate hc, Scalar.zero_eq]
      exact (Buffer.coordinate_of_isEmpty he _).symm
  · obtain ⟨u, hu, hushape, huentry⟩ := Block.take?_reals htshape hshape
      (Access.locate_of_target hplace)
    have hstack : (x.buffers.onDevice.buffer (.type T)).stack =
        some (.values (.ofBlock (.reals t))) := by
      rw [hbuffer]
      exact ht.2
    have hdevice : (x.buffers.onDevice.buffer (.type T)).place = .device := by rw [hbuffer]
    have hread : Vectors.read ⟨x.buffers.onDevice⟩ ⟨T, .array .device (.ints idx)⟩ =
        .ok ⟨.ofBlock (.reals u), (x.buffers.onDevice.buffer (.type T)).place.access⟩ :=
      read_of_rows hstack (congrArg (Residence.places · _) hdevice) (hdevice ▸ hu)
    rw [hdevice] at hread
    refine ⟨.reals u, hread, u, rfl, hushape, fun c hc => ?_⟩
    · rw [Shape.volume_row] at hc
      have hcell : place * T.tangentDim + c < t.shape.volume := by
        rw [htshape, Shape.volume_matrix]
        exact Shape.cell_lt (target_lt hplace) hc
      rw [huentry c (by simpa using hc), Shape.volume_row]
      exact (ht.coordinate hcell).symm

/-! ## Adding -/

/-- Under each key of a layout there is an array of its shape, and nothing else. -/
structure Fills (v : Vectors C α) (L : Layout C) : Prop where
  holds : ∀ key ∈ L.keys,
    ∃ t, (v.buffer key).Holds key t ∧ t.shape = [L.rows key, L.width key]
  outside : ∀ key ∉ L.keys, (v.buffer key).isEmpty = true

variable {L : Layout C}

omit [LinearOrder α] [ExactScalar α] in
theorem Fills.within {v : Vectors C α} (h : v.Fills L) : v.Within L where
  fits key hkey := .inr (h.holds key hkey)
  outside := h.outside

omit [LinearOrder α] [ExactScalar α] in
/-- An array replaced by one of its shape. -/
theorem Fills.insert {v : Vectors C α} (hv : v.Fills L) {key : Key C} (hkey : key ∈ L.keys)
    {b : Buffer C α} {t : Tensor α} (hb : b.Holds key t) (ht : t.shape = [L.rows key, L.width key]) :
    (⟨v.buffers.insert key b⟩ : Vectors C α).Fills L := by
  have hbuffer : ∀ k, (⟨v.buffers.insert key b⟩ : Vectors C α).buffer k =
      if k = key then b else v.buffer k := fun k => Buffers.buffer_insert v.buffers key k b
  refine ⟨fun k hk => ?_, fun k hk => ?_⟩
  · rw [hbuffer]
    by_cases h : k = key
    · subst h
      rw [if_pos rfl]
      exact ⟨t, hb, ht⟩
    · rw [if_neg h]
      exact hv.holds k hk
  · have h : k ≠ key := fun h => hk (h ▸ hkey)
    rw [hbuffer, if_neg h]
    exact hv.outside k hk

omit [LinearOrder α] [ExactScalar α] in
/-- Vectors added into an array. -/
theorem scatterAdd_of_rows [Scalar α] {v : Vectors C α} {a : Handle (Item α)} {rows : Block α}
    (hstack : (v.buffer (.type a.type)).stack = some (.values (.ofBlock rows))) (x : Block α) :
    v.scatterAdd a x = Residence.device.places a.index >>= fun index =>
      fitting (rows.putAdd? index x) >>= fun sums =>
        .ok ⟨v.buffers.insert (.type a.type)
          ((v.buffer (.type a.type)).holding (.values (.ofBlock sums)) .device)⟩ := by
  unfold scatterAdd
  simp only [Buffer.isEmpty_of_stack hstack, Buffer.rows_of_stack hstack, Checked.ok_bind,
    Bool.not_false, require_true]
  rfl

/-- Vectors added into the rows at a handle. Rows addressed twice receive both. -/
theorem scatterAdd_of_fills {v : Vectors C α} (hv : v.Fills L) {T : VariableType}
    (hT : Key.type T ∈ L.keys) {index : Tensor Int} {n : Nat} (hindex : index.shape = [n])
    {rows : Tensor α} (hrows : rows.shape = [n, L.width (.type T)]) :
    ∃ w, v.scatterAdd (Handle.inStack ⟨T, .ints index⟩) (.reals rows) = .ok w ∧ w.Fills L ∧
      ∀ u ∈ L.cells, w.coordinate u = v.coordinate u +
        if u.1 = .type T then
          ∑ i ∈ Finset.range n, if target (L.rows u.1) (index.entry i) = some (u.2 / L.width u.1)
            then rows.entry (i * L.width u.1 + u.2 % L.width u.1) else 0
        else 0 := by
  obtain ⟨t, ht, htshape⟩ := hv.holds (.type T) hT
  have hsums : ∃ s, (Block.reals t).putAdd? (.ints index) (.reals rows) = some (.reals s) ∧ _ :=
    Block.putAdd?_real htshape hindex hrows
  rw [Shape.volume_row] at hsums
  obtain ⟨s, hs, hsshape, hentry⟩ := hsums
  let b := (v.buffer (.type T)).holding (.values (.ofBlock (.reals s))) .device
  have hb : b.Holds (.type T) s := ⟨ht.1, rfl⟩
  have hbuffer : ∀ key, (⟨v.buffers.insert (.type T) b⟩ : Vectors C α).buffer key =
      if key = .type T then b else v.buffer key :=
    fun key => Buffers.buffer_insert v.buffers (.type T) key b
  refine ⟨⟨v.buffers.insert (.type T) b⟩, ?_, hv.insert hT hb hsshape, fun u hu => ?_⟩
  · have hplaces : Residence.device.places (.array .device (.ints index) : Item α) = .ok (.ints index) := rfl
    rw [Handle.inStack, scatterAdd_of_rows ht.2, hplaces, Checked.ok_bind, hs]
    rfl
  · obtain ⟨key, k⟩ := u
    have hk := (Layout.mem_cells.1 hu).2
    unfold coordinate
    simp only [hbuffer]
    by_cases h : key = .type T
    · subst h
      have hvolume : ∀ r : Tensor α, r.shape = [L.rows (.type T), L.width (.type T)] →
          k < r.shape.volume := by
        intro r hr
        rw [hr, Shape.volume_matrix]
        exact hk
      rw [if_pos rfl, if_pos rfl, hb.coordinate (hvolume s hsshape),
        ht.coordinate (hvolume t htshape), hentry k hk]
      rfl
    · rw [if_neg h, if_neg h, add_zero]

omit [LinearOrder α] [ExactScalar α] in
theorem buffer_renewed (t : Buffers C α) (key : Key C) :
    t.renewed.buffer key = (t.buffer key).renewed := by
  unfold Buffers.buffer Buffers.renewed
  rw [Table.get?_map]
  cases t.get? key with
  | none => rfl
  | some b => rfl

theorem fills_renewed {v : Vectors C α} (hv : v.Fills L) :
    (⟨v.buffers.renewed⟩ : Vectors C α).Fills L ∧
      ∀ u, (⟨v.buffers.renewed⟩ : Vectors C α).coordinate u = v.coordinate u := by
  have hbuffer : ∀ key, (⟨v.buffers.renewed⟩ : Vectors C α).buffer key =
      (v.buffer key).renewed := buffer_renewed v.buffers
  refine ⟨⟨fun key hkey => ?_, fun key hkey => ?_⟩, fun u => ?_⟩
  · obtain ⟨t, ht, hshape⟩ := hv.holds key hkey
    rw [hbuffer]
    exact ⟨t, ⟨ht.1, ht.2⟩, hshape⟩
  · rw [hbuffer]
    exact hv.outside key hkey
  · unfold coordinate
    rw [hbuffer]
    rfl

/-- Whatever is added at a handle, the arrays keep their shapes. -/
theorem Fills.scatterAdd {v w : Vectors C α} (hv : v.Fills L) {a : Handle (Item α)} {x : Block α}
    (h : v.scatterAdd a x = .ok w) : w.Fills L := by
  unfold Vectors.scatterAdd at h
  obtain ⟨done, hrequire, h⟩ := Checked.bind_eq_ok h
  have hempty : (v.buffer (.type a.type)).isEmpty = false := by
    cases he : (v.buffer (.type a.type)).isEmpty with
    | false => rfl
    | true =>
      rw [he] at hrequire
      cases hrequire
  have hkey : Key.type a.type ∈ L.keys := by
    by_contra hkey
    rw [hv.outside _ hkey] at hempty
    cases hempty
  obtain ⟨t, ht, hshape⟩ := hv.holds _ hkey
  rw [Buffer.rows_of_stack ht.2, Checked.ok_bind] at h
  obtain ⟨places, -, h⟩ := Checked.bind_eq_ok h
  obtain ⟨rows, hsum, h⟩ := Checked.bind_eq_ok h
  obtain ⟨u, rfl, hu⟩ := Block.shape_putAdd? (fitting_eq_ok hsum)
  cases h
  exact hv.insert hkey ⟨ht.1, rfl⟩ (hu.trans hshape)

end Vectors

namespace Factor

variable {C α : Type} [DecidableEq C] [FactorFamily C] [LinearOrder α] [ExactScalar α]
  {L : Layout C} {v w : Vectors C α}

omit [FactorFamily C] in
theorem fills_accumulate {contributions : List (List (Handle (Block α) × Block α))}
    (hv : v.Fills L) (h : accumulate contributions v = .ok w) : w.Fills L := by
  obtain ⟨sum, hsum, h⟩ := Checked.bind_eq_ok h
  cases h
  refine (Vectors.fills_renewed ?_).1
  refine Checked.foldlM_preserves (P := (Vectors.Fills · L)) (fun slot out next hnext hout => ?_)
    hsum hv
  obtain ⟨index, -, hnext⟩ := Checked.bind_eq_ok hnext
  obtain ⟨rows, -, hnext⟩ := Checked.bind_eq_ok hnext
  exact hout.scatterAdd hnext

/-- The transpose of any stack, added into vectors, keeps their shapes. -/
theorem fills_stackAdjoint {f : FactorStack C α} {y : Block α} (hv : v.Fills L)
    (h : f.stackAdjoint y v = .ok w) : w.Fills L := by
  obtain ⟨rows, -, h⟩ := Checked.bind_eq_ok h
  dsimp only at h
  split at h
  · cases h
  · obtain ⟨contributions, -, h⟩ := Checked.bind_eq_ok h
    exact fills_accumulate hv h

end Factor

end LeastSquares
