import LeastSquares.Proofs.Buffer.Refinement
import LeastSquares.Proofs.Value.Motion

/-!
# How far a move comes

A store that has been filled value by value is moved type by type. A step for a type can be taken if the
store holds as many values of the type, the type has a tangent space and the values can be retracted along
the rows. Values that have the arrays of their type always can. A move takes all steps, or those before the
first that cannot be taken.
-/

namespace LeastSquares

/-! ## Rows that are appended -/

theorem Tensor.shape_append? {β : Type} {t u w : Tensor β} {m n : Nat} {s : Shape}
    (ht : t.shape = m :: s) (hu : u.shape = n :: s) (h : t.append? u = some w) :
    w.shape = (m + n) :: s := by
  rw [append?, ht, hu] at h
  dsimp only at h
  rw [if_pos rfl, ofCells?] at h
  split at h
  · cases h
    rfl
  · cases h

namespace Block

variable {α : Type} [Scalar α]

theorem shape_append? {a b c : Block α} {m n : Nat} {s : Shape} (ha : a.shape = m :: s)
    (hb : b.shape = n :: s) (h : a.append? b = some c) : c.shape = (m + n) :: s := by
  rw [append?, gather?] at h
  cases hwide : widest [a, b] <;> rw [hwide] at h <;> obtain ⟨t, ht, rfl⟩ := Option.map_eq_some_iff.1 h
  · exact Tensor.shape_append? (a.shape_toBools.trans ha) (b.shape_toBools.trans hb) ht
  · exact Tensor.shape_append? (a.shape_toInts.trans ha) (b.shape_toInts.trans hb) ht
  · exact Tensor.shape_append? (a.shape_toReals.trans ha) (b.shape_toReals.trans hb) ht

theorem shapes_append? {as bs cs : List (Block α)} {m n : Nat} {shapes : List Shape}
    (ha : as.map shape = shapes.map (m :: ·)) (hb : bs.map shape = shapes.map (n :: ·))
    (h : List.Forall₂ (fun p c => append? p.1 p.2 = some c) (as.zip bs) cs) :
    cs.map shape = shapes.map ((m + n) :: ·) := by
  induction shapes generalizing as bs cs with
  | nil =>
    obtain rfl : as = [] := by simpa using ha
    cases h
    rfl
  | cons s shapes ih =>
    obtain ⟨a, as, rfl, has, ha⟩ := List.map_eq_cons_iff.1 ha
    obtain ⟨b, bs, rfl, hbs, hb⟩ := List.map_eq_cons_iff.1 hb
    cases h with
    | cons hc h => rw [List.map_cons, List.map_cons, ih ha hb h, shape_append? has hbs hc]

end Block

namespace Buffer

variable {C α : Type} [FactorFamily C] [Scalar α] {b b' : Buffer C α} {x : Literal α}

theorem append_content (h : b.append x = .ok b') : b'.content = b.content := by
  unfold append at h
  obtain ⟨v, -, h⟩ := Checked.bind_eq_ok h
  dsimp only at h
  split at h
  next =>
    split at h <;> cases h <;> rfl
  next =>
    obtain ⟨_, -, h⟩ := Checked.bind_eq_ok h
    obtain ⟨w, -, h⟩ := Checked.bind_eq_ok h
    cases h
    rfl
  next => cases h

omit [FactorFamily C] in
theorem replace_content {i : Item α} (h : b.replace i x = .ok b') : b'.content = b.content := by
  unfold replace at h
  split at h
  next => cases h
  next =>
    obtain ⟨w, -, h⟩ := Checked.bind_eq_ok h
    cases h
    rfl
  next => cases h

/-- The buffer holds values of these shapes, one at least. -/
def HasRowsOf (b : Buffer C α) (shapes : Tree Shape) : Prop :=
  ∃ v n, b.stack = some (.values v) ∧ 0 < n ∧ v.HasShapes (shapes.map (n :: ·))

/-- A value of the shapes is appended to others of them, or as the first. -/
theorem append_rowsOf {shapes : Tree Shape} {v : Value α} (hb : b.stack = none ∨ b.HasRowsOf shapes)
    (hx : x.value? = some v) (hv : v.HasShapes shapes) (harrays : v.leaves ≠ [])
    (h : b.append x = .ok b') : b'.HasRowsOf shapes := by
  have hrow : Value.HasShapes (shapes.map (1 :: ·)) (v.map Block.lifted) := by
    have hlifted : ∀ b : Block α, b.lifted.shape = 1 :: b.shape := fun b => by cases b <;> rfl
    rw [Value.HasShapes, Tree.map_map, ← show Tree.map Block.shape v = shapes from hv, Tree.map_map]
    simp only [hlifted]
  unfold append at h
  rw [hx, fitting_some, Checked.ok_bind] at h
  rcases hb with hnone | ⟨w, n, hw, hn, hshapes⟩
  · simp only [hnone] at h
    split at h
    next habsent =>
      have hleaves := congrArg Tree.leaves habsent
      rw [Tree.leaves_map] at hleaves
      exact absurd (List.map_eq_nil_iff.1 hleaves) harrays
    next =>
      cases h
      exact ⟨_, 1, rfl, Nat.one_pos, hrow⟩
  · simp only [hw] at h
    obtain ⟨_, -, h⟩ := Checked.bind_eq_ok h
    obtain ⟨u, hu, h⟩ := Checked.bind_eq_ok h
    cases h
    obtain ⟨-, hskeleton, hleaves⟩ := Tree.zip?_spec w (fitting_eq_ok hu)
    refine ⟨u, n + 1, rfl, Nat.succ_pos n, ?_⟩
    have hshapesOf := Block.shapes_append? (hshapes.leaves.trans (Tree.leaves_map ..))
      (hrow.leaves.trans (Tree.leaves_map ..)) hleaves
    refine Tree.eq_of_leaves _ _ ?_ ?_
    · rw [Tree.skeleton_map, Tree.skeleton_map, hskeleton, hshapes.skeleton, Tree.skeleton_map]
    · rw [Tree.leaves_map, Tree.leaves_map, hshapesOf]

end Buffer

namespace Store

variable {C α : Type} [DecidableEq C] [FactorFamily C] [Scalar α] {s s' : Store C α} {key : Key C}
  {step b : Buffer C α}

/-! ## Stores filled value by value -/

/-- The store of given values, each of its given type or else of the type that it has by itself. -/
def ofGiven (given : List (Literal α × Option VariableType)) : Checked (Store C α) :=
  run .empty (given.map fun g => .insert g.1 g.2)

variable {given : List (Literal α × Option VariableType)}

/-- What holds of the empty store and is kept by storing a value. -/
theorem ofGiven_induct {P : Store C α → Prop} (hs : ofGiven given = .ok s) (start : P .empty)
    (next : ∀ s g s' handle, g ∈ given → P s → s.insert g.1 g.2 = .ok (s', handle) → P s') : P s := by
  have go : ∀ (rest : List (Literal α × Option VariableType)) s₀, (∀ g ∈ rest, g ∈ given) → P s₀ →
      run s₀ (rest.map fun g => .insert g.1 g.2) = .ok s → P s := by
    intro rest
    induction rest with
    | nil =>
      intro s₀ _ hP hrun
      cases hrun
      exact hP
    | cons g rest ih =>
      intro s₀ hmem hP hrun
      obtain ⟨s₁, happly, hrun⟩ := Checked.bind_eq_ok hrun
      obtain ⟨⟨s₁, handle⟩, hinsert, happlied⟩ := Checked.bind_eq_ok happly
      cases happlied
      exact ih s₁ (fun g hg => hmem g (by simp [hg]))
        (next s₀ g s₁ handle (hmem g (by simp)) hP hinsert) hrun
  exact go given .empty (fun _ h => h) start hs

/-- The buffer under a type is one for its values. -/
def Typed (s : Store C α) : Prop :=
  ∀ key b, s.buffers.get? key = some b → ∃ T, key = .type T ∧ b.content = some (.values T)

omit [FactorFamily C] [Scalar α] in
theorem Typed.content (h : s.Typed) {T : VariableType} (hkey : Key.type T ∈ s.buffers.keys) :
    (s.buffer (.type T)).content = some (.values T) := by
  obtain ⟨b, hb⟩ := Table.mem_keys_iff.1 hkey
  obtain ⟨T', hT', hcontent⟩ := h _ b hb
  cases hT'
  rw [show s.buffer (.type T) = b from Buffers.buffer_of_get? hb, hcontent]

omit [FactorFamily C] [Scalar α] in
theorem WellFormed.typed (hs : s.WellFormed) : s.Typed := by
  intro key b hb
  obtain ⟨T, _, _, hkey, hstores⟩ := hs key b hb
  exact ⟨T, hkey, hstores.content⟩

omit [FactorFamily C] [Scalar α] in
theorem growing_content (h : s.Typed) (T : VariableType) :
    (s.growing T).content = some (.values T) := by
  rw [growing]
  split
  next => rfl
  next hempty =>
    by_cases hkey : Key.type T ∈ s.buffers.keys
    · exact h.content hkey
    · rw [show s.buffer (.type T) = .empty from Buffers.buffer_of_not_mem hkey] at hempty
      exact absurd rfl hempty

omit [FactorFamily C] [Scalar α] in
theorem Typed.insert_values (h : s.Typed) {T : VariableType} (hb : b.content = some (.values T)) :
    (⟨s.buffers.insert (.type T) b⟩ : Store C α).Typed := by
  intro key c hc
  rw [Table.get?_insert] at hc
  split at hc
  next hkey =>
    cases hc
    exact ⟨T, hkey, hb⟩
  next => exact h key c hc

omit [DecidableEq C] [FactorFamily C] in
theorem movedBuffer_content {T : VariableType} (hcontent : b.content = some (.values T)) {b' : Buffer C α}
    (h : movedBuffer (.type T) b step = .ok b') : b'.content = some (.values T) := by
  obtain ⟨_, -, h⟩ := Checked.bind_eq_ok h
  obtain ⟨_, -, h⟩ := Checked.bind_eq_ok h
  obtain ⟨_, -, h⟩ := Checked.bind_eq_ok h
  obtain ⟨_, -, h⟩ := Checked.bind_eq_ok h
  rw [hcontent] at h
  split at h
  next hT _ _ =>
    cases hT
    obtain ⟨w, -, h⟩ := Checked.bind_eq_ok h
    cases h
    rfl
  next => cases h

theorem Typed.apply (h : s.Typed) {op : Operation C α} (hs : op.apply s = .ok s') : s'.Typed := by
  cases op with
  | insert x type =>
    obtain ⟨⟨_, handle⟩, hx, hs⟩ := Checked.bind_eq_ok hs
    cases hs
    obtain ⟨T, count, grown, -, -, hgrown, rfl, -⟩ := insert_eq_ok hx
    exact h.insert_values ((Buffer.append_content hgrown).trans (growing_content h T))
  | write handle x =>
    obtain ⟨b, hb, hs⟩ := Checked.bind_eq_ok (show s.write handle x = .ok s' from hs)
    obtain ⟨b', hb', hs⟩ := Checked.bind_eq_ok hs
    cases hs
    obtain ⟨_, hkey, -⟩ := Checked.bind_eq_ok hb
    rw [← checkedBuffer_eq_ok hb] at hb'
    refine h.insert_values ((Buffer.replace_content hb').trans (h.content ?_))
    by_contra hmissing
    rw [Bool.eq_false_iff.2 fun hcontains => hmissing (Table.contains_iff.1 hcontains)] at hkey
    cases hkey
  | move along =>
    obtain ⟨hkeys, hbuffers⟩ := moveAlong_spec along.distinct (moveAlong_of_moved hs)
    intro key c hc
    obtain ⟨b, hb⟩ := Table.mem_keys_iff.1 (hkeys ▸ Table.mem_keys_iff.2 ⟨c, hc⟩ : key ∈ s.buffers.keys)
    obtain ⟨T, rfl, hcontent⟩ := h key b hb
    refine ⟨T, rfl, ?_⟩
    rw [← show s'.buffer (.type T) = c from Buffers.buffer_of_get? hc]
    obtain ⟨step, -, -, hmoved⟩ | ⟨-, hsame⟩ := hbuffers (.type T)
    · rw [show s.buffer (.type T) = b from Buffers.buffer_of_get? hb] at hmoved
      exact movedBuffer_content hcontent hmoved
    · rw [hsame, show s.buffer (.type T) = b from Buffers.buffer_of_get? hb, hcontent]

theorem typed_of_run {ops : List (Operation C α)} (hs : Store.empty.run ops = .ok s) : s.Typed :=
  Checked.foldlM_preserves (fun _ _ _ hop h => h.apply hop) hs fun _ _ h => nomatch h

theorem typed_ofGiven (hs : ofGiven given = .ok s) : s.Typed := typed_of_run hs

omit [FactorFamily C] in
/-- The zero tangent vectors have an array for each type that has a tangent space, and nothing else. -/
theorem Typed.fills_tangentZeros (h : s.Typed) {zeros : Vectors C α} (hzeros : s.tangentZeros = .ok zeros) :
    zeros.Fills s.tangents := by
  obtain ⟨t, ht, hzeros⟩ := Checked.bind_eq_ok hzeros
  cases hzeros
  have hstep : ∀ {T b}, s.buffers.get? (.type T) = some b → (if T.isDifferentiable = true then
      b.count >>= fun n => .ok (some (.tangentZeros T n)) else .ok none) = .ok (t.get? (.type T)) := by
    intro T b hb
    obtain ⟨_, hT, hcontent⟩ := h _ b hb
    cases hT
    have hstep := Table.get?_filterMapM ht hb
    simp only [hcontent] at hstep
    exact hstep
  refine ⟨fun key hkey => ?_, fun key hkey => ?_⟩
  · obtain ⟨hstored, hdiff⟩ := mem_tangents.1 hkey
    obtain ⟨b, hb⟩ := Table.mem_keys_iff.1 (List.mem_toFinset.1 hstored)
    obtain ⟨T, rfl, -⟩ := h key b hb
    have hzeros := hstep hb
    rw [if_pos (show T.isDifferentiable = true from hdiff)] at hzeros
    obtain ⟨n, hn, hzeros⟩ := Checked.bind_eq_ok hzeros
    have hrows : s.layout.rows (.type T) = n := by
      show (s.buffer (.type T)).count.toOption.getD 0 = n
      rw [show s.buffer (.type T) = b from Buffers.buffer_of_get? hb, hn]
      rfl
    rw [show Vectors.buffer ⟨t⟩ (.type T) = .tangentZeros T n from
      Buffers.buffer_of_get? (Except.ok.inj hzeros).symm, ← hrows]
    exact ⟨_, ⟨rfl, rfl⟩, rfl⟩
  · show (Buffers.buffer t key).isEmpty = true
    rw [Buffers.buffer_of_not_mem]
    · rfl
    · refine fun hmem => hkey ?_
      obtain ⟨c, hc⟩ := Table.mem_keys_iff.1 hmem
      cases hb : s.buffers.get? key with
      | none => cases (Table.get?_filterMapM_none ht hb).symm.trans hc
      | some b =>
        obtain ⟨T, rfl, -⟩ := h key b hb
        refine mem_tangents.2 ⟨List.mem_toFinset.2 (Table.mem_keys_iff.2 ⟨b, hb⟩), ?_⟩
        by_contra hdiff
        have hzeros := hstep hb
        rw [if_neg (show ¬ T.isDifferentiable = true from hdiff), hc] at hzeros
        cases hzeros

/-- All values that are given as ones of a type have the arrays of the type, one at least. -/
def AllOfShapes (C : Type) [FactorFamily C] (given : List (Literal α × Option VariableType))
    (T : VariableType) : Prop :=
  ∀ g ∈ given, Operation.stored? (.insert g.1 g.2 : Operation C α) = some T →
    ∃ v, g.1.value? = some v ∧ v.HasShapes T.shapes ∧ v.leaves ≠ []

theorem hasRowsOf_ofGiven (hs : ofGiven given = .ok s) {T : VariableType}
    (hT : AllOfShapes C given T) : ∀ b, s.buffers.get? (.type T) = some b → b.HasRowsOf T.shapes := by
  refine ofGiven_induct (P := fun s => ∀ b, s.buffers.get? (.type T) = some b → b.HasRowsOf T.shapes) hs
    (fun _ h => nomatch h) fun s g s' handle hg hP hinsert b hb => ?_
  obtain ⟨T', count, grown, hstored, -, hgrown, rfl, -⟩ := insert_eq_ok hinsert
  rw [Table.get?_insert] at hb
  split at hb
  next hkey =>
    cases hb
    obtain rfl := Key.type.inj hkey
    obtain ⟨v, hv, hshapes, harrays⟩ := hT g hg hstored
    refine Buffer.append_rowsOf ?_ hv hshapes harrays hgrown
    rw [growing]
    split
    next => exact .inl rfl
    next hempty =>
      cases hold : s.buffers.get? (.type T) with
      | none =>
        have hbuffer : s.buffer (.type T) = .empty := by
          rw [Store.buffer, Buffers.buffer, hold]
          rfl
        exact absurd (hbuffer ▸ rfl) hempty
      | some b =>
        rw [show s.buffer (.type T) = b from Buffers.buffer_of_get? hold]
        exact .inr (hP b hold)
  next => exact hP b hb

/-! ## Steps that can be taken -/

/-- A step is for a type that has a tangent space and that the store contains, and has a row for each value. -/
structure Admits (s : Store C α) (key : Key C) (step : Buffer C α) : Prop where
  stored : key ∈ s.buffers.keys
  differentiable : key.isDifferentiable = true
  counts : ∃ n, (s.buffer key).count = .ok n ∧ step.count = .ok n

/-- The values of a type retracted row by row along a step. -/
inductive Retracts (s : Store C α) (step : Buffer C α) : Key C → Buffer C α → Prop
  | rows {T : VariableType} {v d w : Value α} (hv : (s.buffer (.type T)).stack = some (.values v))
      (hd : step.stack = some (.values d)) (hw : retractRows T v d = .ok w) :
      Retracts s step (.type T) (.of (.values w) (.values T))

/-- The step under a key can be taken. -/
def Takes (s : Store C α) (e : Key C × Buffer C α) : Prop :=
  s.Admits e.1 e.2 ∧ ∃ b, s.Retracts e.2 e.1 b

omit [FactorFamily C] in
theorem Retracts.unique {b' : Buffer C α} (h : s.Retracts step key b) (h' : s.Retracts step key b') :
    b' = b := by
  obtain ⟨hv, hd, hw⟩ := h
  obtain ⟨hv', hd', hw'⟩ := h'
  cases hv.symm.trans hv'
  cases hd.symm.trans hd'
  cases hw.symm.trans hw'
  rfl

omit [FactorFamily C] in
theorem movedBuffer_eq_ok_iff (hs : s.Typed) :
    movedBuffer key (s.buffer key) step = .ok b ↔ s.Admits key step ∧ s.Retracts step key b := by
  constructor
  · intro h
    obtain ⟨hdifferentiable, hcontent⟩ := movable_of_movedBuffer h
    have hstored := mem_keys_of_content hcontent
    cases key with
    | group => cases hdifferentiable
    | type T =>
      unfold movedBuffer at h
      obtain ⟨_, -, hrun⟩ := Checked.bind_eq_ok h
      obtain ⟨stored, hcount, hrun⟩ := Checked.bind_eq_ok hrun
      obtain ⟨given, hgiven, hrun⟩ := Checked.bind_eq_ok hrun
      obtain ⟨_, hsame, hmoved⟩ := Checked.bind_eq_ok hrun
      have hcounts : stored = given := by
        by_contra hne
        rw [require, if_neg (by simpa using hne)] at hsame
        cases hsame
      refine ⟨⟨hstored, hdifferentiable, stored, hcount, hcounts ▸ hgiven⟩, ?_⟩
      rw [hs.content hstored] at hmoved
      split at hmoved
      next hT hv hd =>
        cases hT
        obtain ⟨w, hw, hb⟩ := Checked.bind_eq_ok hmoved
        cases hb
        exact .rows hv hd hw
      next => cases hmoved
  · rintro ⟨⟨hstored, hdifferentiable, n, hcount, hgiven⟩, @⟨T, v, d, w, hv, hd, hw⟩⟩
    have hT : T.isDifferentiable = true := hdifferentiable
    unfold movedBuffer
    simp [hT, hcount, hgiven, hs.content hstored, hv, hd, hw]

/-! ## The run of a move -/

/-- How far a move came: the values under the keys worked off are retracted, if there is a step, and all else
is as it was. -/
structure MovedAlong (s : Store C α) (done : List (Key C × Buffer C α)) (s' : Store C α) : Prop where
  keys : s'.buffers.keys = s.buffers.keys
  moved : ∀ e ∈ done, e.2.isEmpty = false → s.Admits e.1 e.2 ∧ s.Retracts e.2 e.1 (s'.buffer e.1)
  kept : ∀ key, (∀ step, (key, step) ∈ done → step.isEmpty = true) →
    s'.buffers.get? key = s.buffers.get? key

/-- One step of a move. -/
def moveOne (e : Key C × Buffer C α) (s : Store C α) : Checked (Store C α) :=
  if e.2.isEmpty then .ok s
  else do return ⟨s.buffers.insert e.1 (← movedBuffer e.1 (s.buffer e.1) e.2)⟩

omit [FactorFamily C] in
theorem MovedAlong.next (hs : s.Typed) {done : List (Key C × Buffer C α)}
    {e : Key C × Buffer C α} {t : Store C α} (h : s.MovedAlong done s') (he : e.1 ∉ done.map Prod.fst)
    (hmove : moveOne e s' = .ok t) : s.MovedAlong (done ++ [e]) t := by
  have hbefore : s'.buffers.get? e.1 = s.buffers.get? e.1 :=
    h.kept e.1 fun step hmem => absurd (List.mem_map_of_mem (f := Prod.fst) hmem) he
  have hbuffer : s'.buffer e.1 = s.buffer e.1 := by
    rw [Store.buffer, Store.buffer, Buffers.buffer, Buffers.buffer, hbefore]
  unfold moveOne at hmove
  split at hmove
  next hempty =>
    cases hmove
    refine ⟨h.keys, fun e' he' hne => ?_, fun key hkey => h.kept key fun step hmem =>
      hkey step (by simp [hmem])⟩
    rcases List.mem_append.1 he' with he' | he'
    · exact h.moved e' he' hne
    · obtain rfl := List.mem_singleton.1 he'
      cases hempty.symm.trans hne
  next hne =>
    obtain ⟨b, hb, hinsert⟩ := Checked.bind_eq_ok hmove
    cases hinsert
    rw [hbuffer] at hb
    obtain ⟨hadmits, hretracts⟩ := (movedBuffer_eq_ok_iff hs).1 hb
    have hinserted : ∀ key, Store.buffer ⟨s'.buffers.insert e.1 b⟩ key =
        if key = e.1 then b else s'.buffer key := fun key => Buffers.buffer_insert ..
    refine ⟨?_, fun e' he' hne' => ?_, fun key hkey => ?_⟩
    · have hmem : e.1 ∈ s'.buffers.keys := h.keys ▸ hadmits.stored
      exact (Table.keys_insert_of_mem hmem).trans h.keys
    · rw [hinserted]
      rcases List.mem_append.1 he' with he' | he'
      · have hother : e'.1 ≠ e.1 := fun hsame => he (hsame ▸ List.mem_map_of_mem he')
        rw [if_neg hother]
        exact h.moved e' he' hne'
      · obtain rfl := List.mem_singleton.1 he'
        rw [if_pos rfl]
        exact ⟨hadmits, hretracts⟩
    · have hother : key ≠ e.1 := by
        rintro rfl
        exact hne (hkey e.2 (by simp))
      show (s'.buffers.insert e.1 b).get? key = _
      rw [Table.get?_insert, if_neg hother]
      exact h.kept key fun step hmem => hkey step (by simp [hmem])

omit [FactorFamily C] in
/-- A move comes to the end, or to the first step that cannot be taken. -/
theorem moveAlong_cases (hs : s.Typed) (entries : List (Key C × Buffer C α))
    (distinct : (entries.map Prod.fst).Nodup) :
    (∃ s', moveAlong entries s = .ok () s' ∧ s.MovedAlong entries s') ∨
      ∃ done e rest f s', entries = done ++ e :: rest ∧ moveAlong entries s = .error f s' ∧
        s.MovedAlong done s' ∧ e.2.isEmpty = false ∧ ¬ s.Takes e := by
  have hnew : ∀ {done e rest}, entries = done ++ e :: rest → e.1 ∉ done.map Prod.fst := by
    rintro done e rest rfl hmem
    rw [List.map_append, List.nodup_append] at distinct
    exact distinct.2.2 _ hmem _ (by simp) rfl
  have hok : ∀ {e : Key C × Buffer C α} {s t : Store C α}, moveOne e s = .ok t →
      ∀ rest, moveAlong (e :: rest) s = moveAlong rest t := by
    intro e s t h rest
    rw [moveAlong_cons]
    unfold moveOne at h
    split at h
    next hempty =>
      cases h
      rw [if_pos hempty]
    next hempty =>
      obtain ⟨b, hb, hinsert⟩ := Checked.bind_eq_ok h
      cases hinsert
      rw [if_neg hempty, hb]
  have herror : ∀ {e : Key C × Buffer C α} {s : Store C α} {f}, moveOne e s = .error f →
      e.2.isEmpty = false ∧ movedBuffer e.1 (s.buffer e.1) e.2 = .error f := by
    intro e s f h
    unfold moveOne at h
    split at h
    next => cases h
    next hempty =>
      refine ⟨by simpa using hempty, ?_⟩
      cases hb : movedBuffer e.1 (s.buffer e.1) e.2 with
      | ok b =>
        rw [hb] at h
        cases h
      | error f' =>
        rw [hb] at h
        exact congrArg _ (Except.error.inj h)
  have hstop : ∀ {e : Key C × Buffer C α} {s : Store C α} {f}, moveOne e s = .error f →
      ∀ rest, moveAlong (e :: rest) s = .error f s := by
    intro e s f h rest
    obtain ⟨hempty, hb⟩ := herror h
    rw [moveAlong_cons, if_neg (by simp [hempty]), hb]
  have hstart : s.MovedAlong [] s := ⟨rfl, by simp, fun _ _ => rfl⟩
  rcases Edit.along_cases (fun _ => rfl) hok hstop hstart entries
      (fun done e rest s' t hentries hP h => hP.next hs (hnew hentries) h) with
    hend | ⟨done, e, rest, f, s', hentries, hrun, hP, hstep⟩
  · exact .inl hend
  · obtain ⟨hempty, hb⟩ := herror hstep
    refine .inr ⟨done, e, rest, f, s', hentries, hrun, hP, hempty, ?_⟩
    rintro ⟨hadmits, b, hretracts⟩
    have hbefore : s'.buffer e.1 = s.buffer e.1 := by
      have hkey := hnew hentries
      rw [Store.buffer, Store.buffer, Buffers.buffer, Buffers.buffer, hP.kept e.1 fun _ hmem =>
        absurd (List.mem_map_of_mem (f := Prod.fst) hmem) hkey]
    rw [hbefore, (movedBuffer_eq_ok_iff hs).2 ⟨hadmits, hretracts⟩] at hb
    cases hb

/-! ## Values of their type's shapes -/

/-- The step has rows of so many coordinates as the type has tangent directions. -/
def Tangential (step : Buffer C α) (T : VariableType) : Prop :=
  ∃ d m, step.stack = some (.values (.ofBlock d)) ∧ d.shape = [m, T.tangentDim]

/-- The buffer holds the values of a type, each moved along its own row of the step. -/
def MovesRows (s : Store C α) (T : VariableType) (step b : Buffer C α) : Prop :=
  ∃ v d w n, (s.buffer (.type T)).stack = some (.values v) ∧ step.stack = some (.values (.ofBlock d)) ∧
    b.stack = some (.values w) ∧ (s.buffer (.type T)).count = .ok n ∧ b.count = .ok n ∧
    ∀ i, i < n → T.retract (v.row i) (.ofBlock (d.row i)) = .ok (w.row i)

omit [FactorFamily C] in
/-- A step that is admitted can be taken where the values have the shapes of their type. They move row by row,
and there are as many afterwards. -/
theorem Admits.takes {T : VariableType} (h : s.Admits (.type T) step)
    (hrows : (s.buffer (.type T)).HasRowsOf T.shapes) (harrays : T.shapes.leaves ≠ [])
    (hstep : Tangential step T) :
    s.Takes (.type T, step) ∧ ∀ b, s.Retracts step (.type T) b → s.MovesRows T step b := by
  obtain ⟨v, n, hv, hn, hshapes⟩ := hrows
  obtain ⟨d, m, hd, hdshape⟩ := hstep
  have hcount : ∀ {b : Buffer C α} {u : Value α}, b.stack = some (.values u) →
      u.HasShapes (T.shapes.map (n :: ·)) → b.count = .ok n :=
    fun hu hshapes => Buffer.HasRows.count_eq ⟨harrays, _, hu, hshapes⟩
  obtain ⟨n', hstored, hgiven⟩ := h.counts
  obtain rfl : n = n' := Except.ok.inj ((hcount hv hshapes).symm.trans hstored)
  obtain rfl : m = n := by
    have hm : step.count = .ok m := by
      simp [Buffer.count, hd, Stack.count, Value.ofBlock, Tree.leaves, hdshape]
    exact Except.ok.inj (hm.symm.trans hgiven)
  obtain ⟨w, hw, hwshapes, hrow⟩ := retractRows_of_shapes h.differentiable hn hshapes hdshape
  have hretracts : s.Retracts step (.type T) (.of (.values w) (.values T)) := .rows hv hd hw
  refine ⟨⟨h, _, hretracts⟩, fun b hb => ?_⟩
  obtain rfl := hretracts.unique hb
  exact ⟨v, d, w, m, hv, hd, rfl, hstored, hcount rfl hwshapes, hrow⟩

end Store

end LeastSquares
