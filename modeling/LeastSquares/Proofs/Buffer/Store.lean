import LeastSquares.Proofs.Buffer.Rows
import LeastSquares.Buffer.Store
import LeastSquares.Proofs.Edit
import LeastSquares.Proofs.Value.Coordinates

/-!
# Stores of well-formed values

In a well-formed store every buffer holds at least one value of its type, as rows of arrays of the
type's shapes if the type has a tangent space. A store is read row by row, and moving it along tangent
vectors keeps it well-formed, with as many values under the same keys. Values of Euclidean types move
coordinate by coordinate.
-/

namespace LeastSquares

namespace Key

variable {C : Type}

def isDifferentiable : Key C → Bool
  | type t => t.isDifferentiable
  | group _ => false

def tangentDim : Key C → Nat
  | type t => t.tangentDim
  | group _ => 0

end Key

namespace Buffer

variable {C α : Type}

/-- The buffer holds the `n` rows of a value of a type. If the type has a tangent space, they have its
shapes. -/
structure Stores (b : Buffer C α) (t : VariableType) (v : Value α) (n : Nat) : Prop where
  content : b.content = some (.values t)
  stack : b.stack = some (.values v)
  rowCount : v.rowCount = .ok n
  positive : 0 < n
  typed : t.isDifferentiable = true → v.form = Value.rowsForm n (t.shapes.map fun s => (.real, s))

variable {b : Buffer C α} {t : VariableType} {v : Value α} {n : Nat}

theorem Stores.count [Scalar α] (h : b.Stores t v n) : b.count = .ok n := by
  obtain ⟨hne, hheads⟩ := Value.rowCount_eq_ok.1 h.rowCount
  obtain ⟨leaf, rest, hleaves⟩ := List.exists_cons_of_ne_nil hne
  have hhead := hheads leaf (by simp [hleaves])
  simp [Buffer.count, h.stack, Stack.count, hleaves, hhead]

theorem Stores.row_isReal [Scalar α] (h : b.Stores t v n) (ht : t.isDifferentiable = true) (i : Nat) :
    (v.row i).IsReal t.shapes := Value.form_row (h.typed ht) i

theorem Stores.shape_cons (h : b.Stores t v n) : ∀ leaf ∈ v.leaves, ∃ s, leaf.shape = n :: s := by
  intro leaf hleaf
  have hhead := (Value.rowCount_eq_ok.1 h.rowCount).2 leaf hleaf
  cases hs : leaf.shape with
  | nil => rw [hs] at hhead; cases hhead
  | cons m s =>
    rw [hs] at hhead
    exact ⟨s, by rw [Option.some.inj hhead]⟩

end Buffer

namespace Store

variable {C α : Type} [DecidableEq C] [Scalar α]

/-- Every buffer holds values of its type. -/
def WellFormed (s : Store C α) : Prop :=
  ∀ key b, s.buffers.get? key = some b → ∃ t v n, key = .type t ∧ b.Stores t v n

/-- The values of each type and the coordinates of their tangent vectors. -/
def layout (s : Store C α) : Layout C where
  keys := s.buffers.keys.toFinset
  rows key := (s.buffer key).count.toOption.getD 0
  width := Key.tangentDim

/-- The part of the layout that has tangent vectors. -/
def tangents (s : Store C α) : Layout C where
  keys := s.layout.keys.filter fun key => key.isDifferentiable = true
  rows := s.layout.rows
  width := s.layout.width

/-- The stacked values of a type. -/
def valuesOf (s : Store C α) (t : VariableType) : Value α :=
  match (s.buffer (.type t)).stack with
  | some (.values v) => v
  | _ => .absent

variable {s s' : Store C α}

theorem WellFormed.stores (hs : s.WellFormed) {T : VariableType} (hT : Key.type T ∈ s.layout.keys) :
    (s.buffer (.type T)).Stores T (s.valuesOf T) (s.layout.rows (.type T)) := by
  obtain ⟨b, hb⟩ := Table.mem_keys_iff.1 (List.mem_toFinset.1 hT)
  obtain ⟨t, v, n, hkey, h⟩ := hs _ b hb
  obtain rfl := Key.type.inj hkey
  have hbuffer : s.buffer (.type T) = b := Buffers.buffer_of_get? hb
  have hrows : s.layout.rows (.type T) = n := by
    show (s.buffer (.type T)).count.toOption.getD 0 = n
    rw [hbuffer, h.count]
    rfl
  have hvalues : s.valuesOf T = v := by
    rw [valuesOf, hbuffer, h.stack]
  rw [hbuffer, hrows, hvalues]
  exact h

omit [Scalar α] in
theorem mem_tangents [Scalar α] {key : Key C} :
    key ∈ s.tangents.keys ↔ key ∈ s.layout.keys ∧ key.isDifferentiable = true := Finset.mem_filter

/-! ## Tangent vectors -/

/-- The zero tangent vectors for the values under a key, if they have any. -/
def zerosFor (key : Key C) (b : Buffer C α) : Option (Buffer C α) :=
  match key with
  | .type t =>
    if t.isDifferentiable then some (.tangentZeros t (b.count.toOption.getD 0)) else none
  | .group _ => none

/-- The zero tangent vectors have an array for each type with a tangent space, with a row for each
value. -/
theorem WellFormed.tangentZeros (hs : s.WellFormed) :
    ∃ z, s.tangentZeros = .ok z ∧ z.buffers.entries = Table.images zerosFor s.buffers.entries := by
  unfold Store.tangentZeros
  refine Checked.exists_bind (Table.filterMapM_ok zerosFor fun e he => ?_) fun u hu => ⟨⟨u⟩, rfl, hu⟩
  obtain ⟨t, v, n, hkey, hb⟩ := hs e.1 e.2 (Table.get?_eq_some_iff.2 he)
  simp only [hkey, zerosFor, hb.content, hb.count]
  cases t.isDifferentiable <;> rfl

theorem WellFormed.mem_tangentZeros (hs : s.WellFormed) {key : Key C} {b : Buffer C α}
    (h : (key, b) ∈ Table.images zerosFor s.buffers.entries) :
    ∃ T, key = .type T ∧ key ∈ s.tangents.keys ∧ 0 < s.layout.rows key ∧
      b = .tangentZeros T (s.layout.rows key) := by
  obtain ⟨old, hmem, himage⟩ := Table.mem_of_mem_images h
  have hget := Table.get?_eq_some_iff.2 hmem
  obtain ⟨t, v, n, rfl, hold⟩ := hs key old hget
  have hrows : s.layout.rows (.type t) = n := by
    show (s.buffer (.type t)).count.toOption.getD 0 = n
    rw [show s.buffer (.type t) = old from Buffers.buffer_of_get? hget, hold.count]
    rfl
  simp only [zerosFor, hold.count, Option.ite_none_right_eq_some, Option.some.injEq] at himage
  obtain ⟨hdiff, rfl⟩ := himage
  refine ⟨t, rfl, mem_tangents.2 ⟨List.mem_toFinset.2 (Table.mem_keys_iff.2 ⟨old, hget⟩), hdiff⟩, ?_,
    by rw [hrows]; rfl⟩
  rw [hrows]
  exact hold.positive

theorem mem_keys_images {key : Key C} (hs : s.WellFormed) (hkey : key ∈ s.tangents.keys) :
    ∃ b, (key, b) ∈ Table.images zerosFor s.buffers.entries := by
  obtain ⟨hmem, hdiff⟩ := mem_tangents.1 hkey
  obtain ⟨b, hb⟩ := Table.mem_keys_iff.1 (List.mem_toFinset.1 hmem)
  obtain ⟨t, v, n, rfl, h⟩ := hs key b hb
  have hdiff : t.isDifferentiable = true := hdiff
  refine ⟨.tangentZeros t (b.count.toOption.getD 0), List.mem_filterMap.2
    ⟨(.type t, b), Table.get?_eq_some_iff.1 hb, ?_⟩⟩
  simp [zerosFor, hdiff]

/-! ## Reading -/

theorem take_row {access : Access} {v : Value α} {n : Nat}
    (hv : ∀ leaf ∈ v.leaves, ∃ s, leaf.shape = n :: s) {index : Tensor Int}
    (hindex : index.shape = []) {place : Nat}
    (hplace : access.locate n (index.entry 0) = some place) :
    (v.traverse fun b => fitting (b.take? access (.ints index)) : Checked (Value α)) =
      .ok (v.row place) := by
  have htake : ∀ leaf ∈ v.leaves, leaf.take? access (.ints index) = some (leaf.row place) := by
    intro leaf hleaf
    obtain ⟨s, hs⟩ := hv leaf hleaf
    exact Block.take?_row hs hindex hplace
  obtain ⟨u, hu⟩ := Tree.traverse_ok v fun leaf hleaf => ⟨_, htake leaf hleaf⟩
  obtain ⟨hskeleton, hleaves⟩ := Tree.traverse_spec v hu
  have hrow : u = v.row place := by
    refine Tree.eq_of_leaves _ _ (hskeleton.trans (Tree.skeleton_map ..).symm) ?_
    rw [Value.row, Tree.leaves_map]
    have hboth := (List.forall₂_and_left (p := fun leaf : Block α =>
      leaf.take? access (.ints index) = some (leaf.row place)) _ _).2 ⟨htake, hleaves⟩
    exact eq_map_of_forall₂ (hboth.imp fun _ _ h => Option.some.inj (h.1.symm.trans h.2))
  rw [Tree.traverse_fitting, hu, hrow]
  rfl

/-- Reading the value of one factor of a stack, whose index is moved to the nearest row. -/
theorem WellFormed.bulk_of_locate (hs : s.WellFormed) {T : VariableType}
    (hT : Key.type T ∈ s.layout.keys) {index : Tensor Int} (hindex : index.shape = []) {place : Nat}
    (hplace : Access.clamped.locate (s.layout.rows (.type T)) (index.entry 0) = some place) :
    s.bulk (Handle.inStack ⟨T, .ints index⟩) = .ok ⟨(s.valuesOf T).row place, .clamped⟩ := by
  have hstores := hs.stores hT
  have hbuffer : (s.buffers.onDevice).buffer (.type T) = { s.buffer (.type T) with place := .device } :=
    Vectors.buffer_onDevice s.buffers (.type T)
  have hcontains : (s.buffers.onDevice).contains (.type T) = true := by
    rw [Table.contains_iff, Buffers.onDevice, Table.keys_map_eq]
    exact List.mem_toFinset.1 hT
  have htake := take_row hstores.shape_cons hindex hplace
  unfold Store.bulk Store.read checkedBuffer Handle.inStack
  have hget : (s.buffers.onDevice.buffer (.type T)).get (.array .device (.ints index)) =
      .ok (.values ((s.valuesOf T).row place)) := by
    rw [hbuffer]
    simp only [Buffer.get, hstores.stack]
    exact congrArg (fun x : Checked (Value α) => x >>= fun v => Except.ok (Stack.values v)) htake
  have haccess : (s.buffers.onDevice.buffer (.type T)).place.access = .clamped := by
    rw [hbuffer]
    rfl
  simp only [Store.buffer, hcontains, require_true, Checked.ok_bind, Checked.pure_eq_ok, hget,
    haccess]

theorem WellFormed.bulk (hs : s.WellFormed) {T : VariableType} (hT : Key.type T ∈ s.layout.keys)
    {index : Tensor Int} (hindex : index.shape = []) {place : Nat}
    (hplace : target (s.layout.rows (.type T)) (index.entry 0) = some place) :
    s.bulk (Handle.inStack ⟨T, .ints index⟩) = .ok ⟨(s.valuesOf T).row place, .clamped⟩ :=
  hs.bulk_of_locate hT hindex (Access.locate_of_target hplace)

/-! ## Moving -/

omit [DecidableEq C] in
/-- The rows of a step for values of a type. -/
theorem retractRows_real {t : VariableType} (ht : t.isDifferentiable = true) {v : Value α} {n : Nat}
    (hv : v.form = Value.rowsForm n (t.shapes.map fun s => (.real, s))) {d : Tensor α}
    (hd : d.shape = [n, t.tangentDim]) :
    ∃ w, retractRows t v (.ofBlock (.reals d)) = .ok w ∧
      w.form = Value.rowsForm n (t.shapes.map fun s => (.real, s)) ∧
      ∀ i, i < n → t.retract (v.row i) (.ofBlock (.reals (d.row i))) = .ok (w.row i) := by
  have hcount : Value.rowCount (.node .tuple [v, Value.ofBlock (.reals d)]) = .ok n :=
    Value.rowCount_pair (Value.head?_of_rowsForm hv) (congrArg List.head? hd)
  have hrow : ∀ i, ∃ y, t.retract (v.row i) (.ofBlock (.reals (d.row i))) = .ok y ∧
      y.IsReal t.shapes := fun i =>
    VariableType.retract_real ht (Value.form_row hv i) (by rw [Tensor.shape_row, hd, List.tail_cons])
  choose y hy hreal using hrow
  obtain ⟨w, hw, hform, hrows⟩ := Value.tabulate_all (n := n) fun i => ⟨hy i, hreal i⟩
  refine ⟨w, ?_, hform, fun i hi => ?_⟩
  · unfold retractRows
    rw [hcount, Checked.ok_bind]
    exact hw
  · rw [hrows i hi]
    exact hy i

omit [DecidableEq C] in
/-- Only values with a tangent space are moved. -/
theorem movable_of_movedBuffer {key : Key C} {b step b' : Buffer C α}
    (h : movedBuffer key b step = .ok b') : key.isDifferentiable = true ∧ b.content ≠ none := by
  unfold movedBuffer at h
  split at h
  next t =>
    obtain ⟨_, hmovable, h⟩ := Checked.bind_eq_ok h
    obtain ⟨stored, -, h⟩ := Checked.bind_eq_ok h
    obtain ⟨given, -, h⟩ := Checked.bind_eq_ok h
    obtain ⟨_, -, h⟩ := Checked.bind_eq_ok h
    refine ⟨?_, fun hnone => ?_⟩
    · unfold require at hmovable
      split at hmovable
      next ht => exact ht
      next => cases hmovable
    · simp only [hnone] at h
      cases h
  next => cases h

omit [DecidableEq C] in
/-- A buffer of the store moved along tangent vectors. -/
theorem movedBuffer_of_stores {t : VariableType} {v : Value α} {n : Nat} {b step b' : Buffer C α}
    {d : Tensor α} (hb : b.Stores t v n) (hstep : step.Holds (.type t) d)
    (hd : d.shape = [n, t.tangentDim]) (h : movedBuffer (.type t) b step = .ok b') :
    ∃ w, b'.Stores t w n ∧
      ∀ i, i < n → t.retract (v.row i) (.ofBlock (.reals (d.row i))) = .ok (w.row i) := by
  have ht : t.isDifferentiable = true := (movable_of_movedBuffer h).1
  unfold movedBuffer at h
  obtain ⟨_, -, h⟩ := Checked.bind_eq_ok h
  obtain ⟨stored, -, h⟩ := Checked.bind_eq_ok h
  obtain ⟨given, -, h⟩ := Checked.bind_eq_ok h
  obtain ⟨_, -, h⟩ := Checked.bind_eq_ok h
  simp only [hb.content, hb.stack, hstep.2] at h
  obtain ⟨w, hw, hform, hrows⟩ := retractRows_real ht (hb.typed ht) hd
  rw [hw, Checked.ok_bind] at h
  cases h
  have hleaves := Value.leaves_form_ne_nil (hb.typed ht) hb.rowCount
  exact ⟨w, ⟨rfl, rfl, Value.rowCount_of_form hform hleaves, hb.positive, fun _ => hform⟩, hrows⟩

theorem moveAlong_cons (key : Key C) (step : Buffer C α) (rest : List (Key C × Buffer C α))
    (s : Store C α) : moveAlong ((key, step) :: rest) s =
      if step.isEmpty then moveAlong rest s
      else match movedBuffer key (s.buffer key) step with
        | .ok moved => moveAlong rest ⟨s.buffers.insert key moved⟩
        | .error e => .error e s := by
  rw [moveAlong]
  cases hempty : step.isEmpty with
  | true => rfl
  | false =>
    simp only [Bool.not_false, if_true, Bool.false_eq_true, if_false]
    rw [Edit.get_bind]
    cases hm : movedBuffer key (s.buffer key) step with
    | ok moved => rfl
    | error e => rfl

theorem moveAlong_of_moved {along : Buffers C α} (h : s.moved along = .ok s') :
    moveAlong along.entries s = .ok () s' := by
  unfold Store.moved move at h
  split at h
  next t ht =>
    cases h
    exact ht
  next => cases h

omit [Scalar α] in
theorem mem_keys_of_content {t : Buffers C α} {key : Key C} (h : (t.buffer key).content ≠ none) :
    key ∈ t.keys := by
  by_contra hkey
  rw [Buffers.buffer_of_not_mem hkey] at h
  exact h rfl

/-- Moving along a list of steps keeps the keys. Each buffer is moved by the step under its key, if
there is one that is not empty, and stays as it is otherwise. -/
theorem moveAlong_spec {entries : List (Key C × Buffer C α)}
    (distinct : (entries.map Prod.fst).Nodup) (h : moveAlong entries s = .ok () s') :
    s'.buffers.keys = s.buffers.keys ∧ ∀ key,
      (∃ step, (key, step) ∈ entries ∧ step.isEmpty = false ∧
        movedBuffer key (s.buffer key) step = .ok (s'.buffer key)) ∨
      ((∀ step, (key, step) ∈ entries → step.isEmpty = true) ∧ s'.buffer key = s.buffer key) := by
  induction entries generalizing s with
  | nil =>
    cases h
    exact ⟨rfl, fun key => .inr ⟨by simp, rfl⟩⟩
  | cons e rest ih =>
    obtain ⟨k, step⟩ := e
    rw [List.map_cons, List.nodup_cons] at distinct
    rw [moveAlong_cons] at h
    cases hempty : step.isEmpty with
    | true =>
      rw [hempty, if_pos rfl] at h
      obtain ⟨hkeys, hbuffers⟩ := ih distinct.2 h
      refine ⟨hkeys, fun key => (hbuffers key).imp ?_ ?_⟩
      · rintro ⟨step', hmem, hmoved⟩
        exact ⟨step', by simp [hmem], hmoved⟩
      · rintro ⟨hall, hsame⟩
        refine ⟨fun step' hmem => ?_, hsame⟩
        rcases List.mem_cons.1 hmem with heq | hmem
        · cases heq
          exact hempty
        · exact hall step' hmem
    | false =>
      rw [hempty] at h
      cases hm : movedBuffer k (s.buffer k) step with
      | error e =>
        rw [hm] at h
        cases h
      | ok moved =>
        rw [hm] at h
        obtain ⟨hkeys, hbuffers⟩ := ih distinct.2 h
        have hk : k ∈ s.buffers.keys := mem_keys_of_content (movable_of_movedBuffer hm).2
        have hinsert : ∀ key, Store.buffer ⟨s.buffers.insert k moved⟩ key =
            if key = k then moved else s.buffer key := fun key => Buffers.buffer_insert ..
        refine ⟨hkeys.trans (Table.keys_insert_of_mem hk), fun key => ?_⟩
        by_cases hkey : key = k
        · -- the key stands once in the list, so nothing after it moves the buffer again
          subst hkey
          rcases hbuffers key with ⟨step', hmem, -⟩ | ⟨-, hsame⟩
          · exact absurd (List.mem_map_of_mem (f := Prod.fst) hmem) distinct.1
          · refine .inl ⟨step, by simp, hempty, ?_⟩
            rw [hm, hsame, hinsert, if_pos rfl]
        · have hrest := hbuffers key
          rw [hinsert, if_neg hkey] at hrest
          refine hrest.imp ?_ ?_
          · rintro ⟨step', hmem, hmoved⟩
            exact ⟨step', by simp [hmem], hmoved⟩
          · rintro ⟨hall, hsame⟩
            refine ⟨fun step' hmem => ?_, hsame⟩
            rcases List.mem_cons.1 hmem with heq | hmem
            · exact absurd (congrArg Prod.fst heq) hkey
            · exact hall step' hmem

/-- Values without a tangent space keep their buffers. -/
theorem buffer_moved {d : Vectors C α} (h : s.moved d.buffers = .ok s') {key : Key C}
    (hkey : key.isDifferentiable = false) : s'.buffer key = s.buffer key := by
  rcases (moveAlong_spec d.buffers.distinct (moveAlong_of_moved h)).2 key with
    ⟨step, -, -, hstep⟩ | ⟨-, hsame⟩
  · cases (movable_of_movedBuffer hstep).1.symm.trans hkey
  · exact hsame

omit [DecidableEq C] in
theorem movedBuffer_ok {t : VariableType} (ht : t.isDifferentiable = true) {v : Value α} {n : Nat}
    {b step : Buffer C α} {d : Tensor α} (hb : b.Stores t v n) (hstep : step.Holds (.type t) d)
    (hd : d.shape = [n, t.tangentDim]) : ∃ b', movedBuffer (.type t) b step = .ok b' := by
  obtain ⟨w, hw, -⟩ := retractRows_real ht (hb.typed ht) hd
  have hcount : step.count = .ok n := by
    simp [Buffer.count, hstep.2, Stack.count, Value.ofBlock, Tree.leaves, Block.shape, hd]
  refine ⟨.of (.values w) (.values t), ?_⟩
  unfold movedBuffer
  simp [ht, hb.count, hcount, hb.content, hb.stack, hstep.2, hw]

/-- Moving along a list of steps succeeds if each of them can be made. -/
theorem moveAlong_ok {entries : List (Key C × Buffer C α)}
    (distinct : (entries.map Prod.fst).Nodup)
    (h : ∀ e ∈ entries, e.2.isEmpty = false → ∃ b, movedBuffer e.1 (s.buffer e.1) e.2 = .ok b) :
    ∃ s', moveAlong entries s = .ok () s' := by
  induction entries generalizing s with
  | nil => exact ⟨s, rfl⟩
  | cons e rest ih =>
    obtain ⟨k, step⟩ := e
    rw [List.map_cons, List.nodup_cons] at distinct
    rw [moveAlong_cons]
    cases hempty : step.isEmpty with
    | true => exact ih distinct.2 fun e he => h e (by simp [he])
    | false =>
      obtain ⟨b, hb⟩ := h (k, step) (by simp) hempty
      have hb : movedBuffer k (s.buffer k) step = .ok b := hb
      rw [hb]
      -- the buffers of the steps that are left are still those of the store
      refine ih distinct.2 fun e he hne => ?_
      have hkey : e.1 ≠ k := fun hk => distinct.1 (List.mem_map.2 ⟨e, he, hk⟩)
      have hbuffer : Store.buffer ⟨s.buffers.insert k b⟩ e.1 = s.buffer e.1 :=
        (Buffers.buffer_insert ..).trans (if_neg hkey)
      rw [hbuffer]
      exact h e (by simp [he]) hne

end Store

/-! ## Moving along a step that fits -/

namespace Store

variable {C α : Type} [DecidableEq C] [LinearOrder α] [ExactScalar α] {s s' : Store C α}
  {d : Vectors C α}

/-- The values of one type after a move. Those of a Euclidean type have moved by the coordinates of
the step. -/
theorem WellFormed.moved_stores (hs : s.WellFormed) (hd : d.Fits s.tangents)
    (h : s.moved d.buffers = .ok s') {T : VariableType} (hT : Key.type T ∈ s.layout.keys) :
    ∃ w, (s'.buffer (.type T)).Stores T w (s.layout.rows (.type T)) ∧
      (T.isEuclidean = true → ∀ i, i < s.layout.rows (.type T) → ∀ c, c < T.tangentDim →
        (w.row i).coordinate c = ((s.valuesOf T).row i).coordinate c +
          d.coordinate (.type T, i * T.tangentDim + c)) := by
  have hstores := hs.stores hT
  rcases (moveAlong_spec d.buffers.distinct (moveAlong_of_moved h)).2 (.type T) with
    ⟨step, hmem, hnonempty, hstep⟩ | ⟨hempty, hsame⟩
  · have hdiff : T.isDifferentiable = true := (movable_of_movedBuffer hstep).1
    have hbuffer : d.buffer (.type T) = step :=
      Buffers.buffer_of_get? (Table.get?_eq_some_iff.2 hmem)
    obtain ⟨t, ht, hshape⟩ := (hd _ (mem_tangents.2 ⟨hT, hdiff⟩)).resolve_left
      (by rw [hbuffer, hnonempty]; simp)
    have hshape : t.shape = [s.layout.rows (.type T), T.tangentDim] := hshape
    obtain ⟨w, hw, hrows⟩ := movedBuffer_of_stores hstores (hbuffer ▸ ht) hshape hstep
    refine ⟨w, hw, fun heuclidean i hi c hc => ?_⟩
    obtain ⟨y, hy, -, hcoordinate⟩ := VariableType.retract_euclidean heuclidean
      (hstores.row_isReal hdiff i) (d := t.row i) (by rw [Tensor.shape_row, hshape]; rfl)
    obtain rfl := Except.ok.inj (hy.symm.trans (hrows i hi))
    rw [hcoordinate c hc, Tensor.entry_row hshape i (by simpa using hc), Shape.volume_row]
    refine congrArg _ (ht.coordinate ?_).symm
    rw [hshape, Shape.volume_matrix]
    exact Shape.cell_lt hi hc
  · refine ⟨s.valuesOf T, hsame ▸ hstores, fun _ i _ c _ => ?_⟩
    have hzero : (d.buffer (.type T)).isEmpty = true := by
      by_cases hkey : Key.type T ∈ d.buffers.keys
      · obtain ⟨b, hb⟩ := Table.mem_keys_iff.1 hkey
        rw [show d.buffer (.type T) = b from Buffers.buffer_of_get? hb]
        exact hempty b (Table.get?_eq_some_iff.1 hb)
      · rw [show d.buffer (.type T) = .empty from Buffers.buffer_of_not_mem hkey]
        rfl
    rw [Vectors.coordinate, Buffer.coordinate_of_isEmpty hzero, add_zero]

/-- A move along tangent vectors that fit keeps a store well-formed, with the same layout. -/
theorem WellFormed.moved (hs : s.WellFormed) (hd : d.Fits s.tangents)
    (h : s.moved d.buffers = .ok s') : s'.WellFormed ∧ s'.layout = s.layout := by
  have hkeys := (moveAlong_spec d.buffers.distinct (moveAlong_of_moved h)).1
  have hstores : ∀ key ∈ s.buffers.keys, ∃ T w, key = .type T ∧
      (s'.buffer key).Stores T w (s.layout.rows key) := by
    intro key hkey
    obtain ⟨b, hb⟩ := Table.mem_keys_iff.1 hkey
    obtain ⟨T, -, -, rfl, -⟩ := hs key b hb
    obtain ⟨w, hw, -⟩ := hs.moved_stores hd h (List.mem_toFinset.2 hkey)
    exact ⟨T, w, rfl, hw⟩
  refine ⟨fun key b hb => ?_, ?_⟩
  · obtain ⟨T, w, rfl, hw⟩ := hstores key (hkeys ▸ Table.mem_keys_iff.2 ⟨b, hb⟩)
    rw [show s'.buffer (.type T) = b from Buffers.buffer_of_get? hb] at hw
    exact ⟨T, w, _, rfl, hw⟩
  · have hrows : s'.layout.rows = s.layout.rows := by
      funext key
      by_cases hkey : key ∈ s.buffers.keys
      · obtain ⟨T, w, rfl, hw⟩ := hstores key hkey
        show (s'.buffer (.type T)).count.toOption.getD 0 = _
        rw [hw.count]
        rfl
      · show (s'.buffers.buffer key).count.toOption.getD 0 =
          (s.buffers.buffer key).count.toOption.getD 0
        rw [Buffers.buffer_of_not_mem hkey, Buffers.buffer_of_not_mem (hkeys ▸ hkey)]
    simp only [layout, hkeys]
    exact congrArg (Layout.mk _ · _) hrows

/-- A well-formed store can be moved along tangent vectors of its own. -/
theorem WellFormed.exists_moved (hs : s.WellFormed) (hd : d.Within s.tangents) :
    ∃ s', s.moved d.buffers = .ok s' := by
  obtain ⟨s', hs'⟩ := moveAlong_ok (s := s) d.buffers.distinct fun e he hne => by
    have hbuffer : d.buffer e.1 = e.2 := Buffers.buffer_of_get? (Table.get?_eq_some_iff.2 he)
    by_cases hkey : e.1 ∈ s.tangents.keys
    · obtain ⟨t, ht, hshape⟩ := (hd.fits _ hkey).resolve_left (by rw [hbuffer, hne]; simp)
      obtain ⟨hmem, hdiff⟩ := mem_tangents.1 hkey
      rw [hbuffer] at ht
      obtain ⟨key, step⟩ := e
      cases key with
      | group k => cases hdiff
      | type T => exact movedBuffer_ok hdiff (hs.stores hmem) ht hshape
    · rw [← hbuffer, hd.outside _ hkey] at hne
      cases hne
  refine ⟨s', ?_⟩
  rw [Store.moved, move, hs']

/-- A well-formed store in which the values of Euclidean types are those of another, moved along
tangent vectors. -/
structure Moves (s : Store C α) (d : Vectors C α) (s' : Store C α) : Prop where
  wellFormed : s'.WellFormed
  layout : s'.layout = s.layout
  coordinate : ∀ T, Key.type T ∈ s.layout.keys → T.isEuclidean = true →
    ∀ i, i < s.layout.rows (.type T) → ∀ c, c < T.tangentDim →
      ((s'.valuesOf T).row i).coordinate c = ((s.valuesOf T).row i).coordinate c +
        d.coordinate (.type T, i * T.tangentDim + c)

theorem WellFormed.moves (hs : s.WellFormed) (hd : d.Fits s.tangents)
    (h : s.moved d.buffers = .ok s') : s.Moves d s' := by
  obtain ⟨hwell, hlayout⟩ := hs.moved hd h
  refine ⟨hwell, hlayout, fun T hT heuclidean => ?_⟩
  obtain ⟨w, hw, hcoordinate⟩ := hs.moved_stores hd h hT
  have hvalues : s'.valuesOf T = w := by
    rw [valuesOf, hw.stack]
  rw [hvalues]
  exact hcoordinate heuclidean

/-- A store has moved nowhere along zero vectors. -/
theorem WellFormed.moves_zero (hs : s.WellFormed)
    (hd : ∀ u ∈ s.tangents.cells, d.coordinate u = 0) : s.Moves d s := by
  refine ⟨hs, rfl, fun T hT heuclidean i hi c hc => ?_⟩
  rw [hd, add_zero]
  exact Layout.mem_cells.2 ⟨mem_tangents.2
    ⟨hT, VariableType.isDifferentiable_of_isEuclidean heuclidean⟩, Shape.cell_lt hi hc⟩

end Store

end LeastSquares
