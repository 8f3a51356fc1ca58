import LeastSquares.Proofs.Buffer.Growth
import LeastSquares.Proofs.Script.Atomic
import LeastSquares.Catalogue

/-!
# A store as separate values

The values of a type lie together, as rows of shared arrays. Seen through the handles they are separate:
what is read at a handle is the value that was stored there, taken through the later operations that
address it. The operations are followed one by one, with an invariant that says for every type how
many rows there are and what they are.
-/

namespace LeastSquares

/-! ## Runs of operations -/

namespace Store

/-- What is done to a store. -/
inductive Operation (C α : Type) where
  | insert (x : Literal α) (type : Option VariableType)
  | write (h : Handle (Item α)) (x : Literal α)
  | move (along : Buffers C α)

variable {C α : Type} [DecidableEq C] [FactorFamily C] [Scalar α]

def Operation.apply (s : Store C α) : Operation C α → Checked (Store C α)
  | insert x type => do return (← s.insert x type).1
  | write h x => s.write h x
  | move along => s.moved along

/-- The store after operations that all succeed. -/
def run (s : Store C α) (ops : List (Operation C α)) : Checked (Store C α) :=
  ops.foldlM Operation.apply s

/-- The type of which an operation stores a value. -/
def Operation.stored? : Operation C α → Option VariableType
  | insert _ (some T) => some T
  | insert x none => (VariableType.infer (FactorFamily.tuples C) x).toOption
  | _ => none

/-- How many values of a type are stored. -/
def storedCount (T : VariableType) (ops : List (Operation C α)) : Nat :=
  ops.countP fun op => op.stored? = some T

/-- What an operation makes of the value at place `k` of a type: a write to it replaces the value, and
a move along steps of the type takes it along row `k` of them. -/
def Operation.effect (T : VariableType) (k : Nat) (v : Value α) : Operation C α → Checked (Value α)
  | insert .. => .ok v
  | write h x => if h.type = T ∧ h.place? = some k then fitting x.value? else .ok v
  | move along =>
    match (along.buffer (.type T)).stack with
    | none => .ok v
    | some (.values d) => T.retract v (d.row k)
    | some (.factors _) => misfit

/-- A value taken through operations, in order. -/
def follow (T : VariableType) (k : Nat) (v : Value α) (ops : List (Operation C α)) :
    Checked (Value α) :=
  ops.foldlM (fun v op => op.effect T k v) v

/-- All values that are at any time at the handles of a type have one form, with at least one array;
and a value is only written in the place of a single one that is there. -/
structure Uniform (forms : VariableType → Tree (Kind × Shape)) (ops : List (Operation C α)) :
    Prop where
  arrays : ∀ T, (forms T).leaves ≠ []
  form : ∀ before {x type} between after {T v w}, ops = before ++ .insert x type :: (between ++ after) →
    Operation.stored? (.insert x type : Operation C α) = some T → x.value? = some v →
    follow T (storedCount T before) v between = .ok w → w.form = forms T
  single : ∀ before {h x} after, ops = before ++ .write h x :: after →
    ∃ k v, h.place? = some k ∧ k < storedCount h.type before ∧ x.value? = some v

section Lists

variable {T : VariableType} {ops before after : List (Operation C α)} {op : Operation C α}

omit [DecidableEq C] [Scalar α] in
theorem storedCount_append (ops ops' : List (Operation C α)) :
    storedCount T (ops ++ ops') = storedCount T ops + storedCount T ops' := List.countP_append

omit [DecidableEq C] [Scalar α] in
theorem storedCount_singleton (op : Operation C α) :
    storedCount T [op] = if op.stored? = some T then 1 else 0 := by
  simp [storedCount, List.countP_cons]

omit [DecidableEq C] [Scalar α] in
theorem storedCount_lt {x : Literal α} {type : Option VariableType}
    (h : Operation.stored? (.insert x type : Operation C α) = some T) :
    storedCount T before < storedCount T (before ++ .insert x type :: after) := by
  rw [storedCount_append, ← List.singleton_append, storedCount_append, storedCount_singleton, if_pos h]
  omega

omit [DecidableEq C] [Scalar α] in
/-- Every place that is counted was stored at. -/
theorem exists_origin {k : Nat} (h : k < storedCount T ops) :
    ∃ before x type after, ops = before ++ .insert x type :: after ∧
      Operation.stored? (.insert x type : Operation C α) = some T ∧ storedCount T before = k := by
  induction ops using List.reverseRecOn with
  | nil => simp [storedCount] at h
  | append_singleton ops op ih =>
    by_cases hk : k < storedCount T ops
    · obtain ⟨before, x, type, after, rfl, hstored⟩ := ih hk
      exact ⟨before, x, type, after ++ [op], by simp, hstored⟩
    · rw [storedCount_append, storedCount_singleton] at h
      split at h
      next hop =>
        cases op with
        | insert x type => exact ⟨ops, x, type, [], rfl, hop, by omega⟩
        | write | move => cases hop
      next => omega

omit [DecidableEq C] [FactorFamily C] [Scalar α] in
/-- A value that was stored in a longer run was stored last or before. -/
theorem snoc_eq_append_cons {op' : Operation C α} (h : ops ++ [op] = before ++ op' :: after) :
    (after = [] ∧ op = op' ∧ ops = before) ∨
      ∃ after', after = after' ++ [op] ∧ ops = before ++ op' :: after' := by
  rcases List.eq_nil_or_concat after with rfl | ⟨after', last, rfl⟩
  · obtain ⟨rfl, hop⟩ := List.append_inj' h rfl
    exact .inl ⟨rfl, by simpa using hop, rfl⟩
  · rw [List.concat_eq_append, ← List.cons_append, ← List.append_assoc] at h
    obtain ⟨hops, hop⟩ := List.append_inj' h rfl
    obtain rfl : op = last := by simpa using hop
    exact .inr ⟨after', List.concat_eq_append .., hops⟩

omit [FactorFamily C] in
theorem follow_append (k : Nat) (v : Value α) (ops ops' : List (Operation C α)) :
    follow T k v (ops ++ ops') = follow T k v ops >>= fun w => follow T k w ops' :=
  List.foldlM_append ..

omit [FactorFamily C] in
theorem follow_singleton (k : Nat) (v : Value α) (op : Operation C α) :
    follow T k v [op] = op.effect T k v := by
  show (op.effect T k v >>= fun w => pure w) = _
  exact bind_pure _

end Lists

theorem Uniform.init {forms : VariableType → Tree (Kind × Shape)} {ops : List (Operation C α)}
    {op : Operation C α} (h : Uniform forms (ops ++ [op])) : Uniform forms ops where
  arrays := h.arrays
  form before _ _ between after _ _ _ hops := h.form before between (after ++ [op]) (by simp [hops])
  single before _ _ after hops := h.single before (after ++ [op]) (by simp [hops])

theorem Uniform.left {forms : VariableType → Tree (Kind × Shape)} {ops ops' : List (Operation C α)}
    (h : Uniform forms (ops ++ ops')) : Uniform forms ops := by
  induction ops' using List.reverseRecOn with
  | nil => rwa [List.append_nil] at h
  | append_singleton ops' op ih =>
    rw [← List.append_assoc] at h
    exact ih h.init

/-- Operations are uniform if each of them gives values of the forms, or keeps the form. -/
theorem Uniform.of_each {forms : VariableType → Tree (Kind × Shape)} {ops : List (Operation C α)}
    (arrays : ∀ T, (forms T).leaves ≠ [])
    (stored : ∀ {x type T v}, .insert x type ∈ ops →
      Operation.stored? (.insert x type : Operation C α) = some T → x.value? = some v →
      v.form = forms T)
    (keeps : ∀ op ∈ ops, ∀ T k v w, v.form = forms T → op.effect T k v = .ok w → w.form = forms T)
    (single : ∀ before {h x} after, ops = before ++ .write h x :: after →
      ∃ k v, h.place? = some k ∧ k < storedCount h.type before ∧ x.value? = some v) :
    Uniform forms ops where
  arrays := arrays
  single := single
  form before x type between after T v w hops hstored hv hfollow := by
    have hmem : ∀ op ∈ between, op ∈ ops := fun op hop => by simp [hops, hop]
    have go : ∀ (between : List (Operation C α)) (v : Value α), (∀ op ∈ between, op ∈ ops) →
        v.form = forms T → follow T (storedCount T before) v between = .ok w → w.form = forms T := by
      intro between
      induction between with
      | nil =>
        intro v _ hform hfollow
        obtain rfl : v = w := Except.ok.inj hfollow
        exact hform
      | cons op between ih =>
        intro v hmem hform hfollow
        obtain ⟨u, hu, hfollow⟩ := Checked.bind_eq_ok hfollow
        exact ih u (fun o ho => hmem o (by simp [ho]))
          (keeps op (hmem op (by simp)) T _ v u hform hu) hfollow
    exact go between v hmem (stored (by simp [hops]) hstored hv) hfollow

/-! ## The invariant -/

/-- The store holds, for every type, the values that its handles have come to have. -/
structure Refines (forms : VariableType → Tree (Kind × Shape)) (ops : List (Operation C α))
    (s : Store C α) : Prop where
  missing : ∀ T, storedCount T ops = 0 → Key.type T ∉ s.buffers.keys
  stacked : ∀ T, 0 < storedCount T ops →
    (s.buffer (.type T)).Stacks T (s.valuesOf T) (storedCount T ops) (forms T)
  follows : ∀ {before x type after T}, ops = before ++ .insert x type :: after →
    Operation.stored? (.insert x type : Operation C α) = some T → ∃ v, x.value? = some v ∧
      follow T (storedCount T before) v after =
        .ok ((s.valuesOf T).row (storedCount T before))

/-- What one more operation has to do to a store. -/
structure Advances (forms : VariableType → Tree (Kind × Shape)) (ops : List (Operation C α))
    (op : Operation C α) (s s' : Store C α) : Prop where
  missing : ∀ T, storedCount T (ops ++ [op]) = 0 → Key.type T ∉ s'.buffers.keys
  stacked : ∀ T, 0 < storedCount T (ops ++ [op]) →
    (s'.buffer (.type T)).Stacks T (s'.valuesOf T) (storedCount T (ops ++ [op])) (forms T)
  rows : ∀ T k, k < storedCount T ops →
    op.effect T k ((s.valuesOf T).row k) = .ok ((s'.valuesOf T).row k)
  last : ∀ {x type T}, op = .insert x type →
    Operation.stored? (.insert x type : Operation C α) = some T →
    x.value? = some ((s'.valuesOf T).row (storedCount T ops))

section Invariant

variable {forms : VariableType → Tree (Kind × Shape)} {ops : List (Operation C α)}
  {op : Operation C α} {s s' : Store C α}

theorem Refines.empty : Refines forms ([] : List (Operation C α)) .empty where
  missing _ _ := List.not_mem_nil
  stacked _ h := absurd h (Nat.lt_irrefl 0)
  follows h := by simp at h

theorem Refines.snoc (h : Refines forms ops s) (hop : Advances forms ops op s s') :
    Refines forms (ops ++ [op]) s' where
  missing := hop.missing
  stacked := hop.stacked
  follows {before x type after T} hops hstored := by
    rcases snoc_eq_append_cons hops with ⟨rfl, rfl, rfl⟩ | ⟨after, rfl, rfl⟩
    · exact ⟨_, hop.last rfl hstored, rfl⟩
    · obtain ⟨v, hv, hfollow⟩ := h.follows rfl hstored
      refine ⟨v, hv, ?_⟩
      rw [follow_append, hfollow, Checked.ok_bind, follow_singleton]
      exact hop.rows T _ (storedCount_lt hstored)

/-- The values at the handles have the form of their type after one more operation, too. -/
theorem Refines.form_effect (h : Refines forms ops s) (hu : Uniform forms (ops ++ [op]))
    {T : VariableType} {k : Nat} (hk : k < storedCount T ops) {z : Value α}
    (hz : op.effect T k ((s.valuesOf T).row k) = .ok z) : z.form = forms T := by
  obtain ⟨before, x, type, after, rfl, hstored, rfl⟩ := exists_origin hk
  obtain ⟨v, hv, hfollow⟩ := h.follows rfl hstored
  refine hu.form before (after ++ [op]) [] (by simp) hstored hv ?_
  rw [follow_append, hfollow, Checked.ok_bind, follow_singleton, hz]

omit [FactorFamily C] [Scalar α] in
theorem valuesOf_insert (T T' : VariableType) (b : Buffer C α) :
    valuesOf ⟨s.buffers.insert (.type T) b⟩ T' =
      if T' = T then valuesOf ⟨s.buffers.insert (.type T) b⟩ T else s.valuesOf T' := by
  by_cases hT : T' = T
  · rw [if_pos hT, hT]
  · have hkey : Key.type T' ≠ (Key.type T : Key C) := fun h => hT (Key.type.inj h)
    rw [if_neg hT, valuesOf, Store.buffer, Buffers.buffer_insert, if_neg hkey]
    rfl

/-- An operation that changes the buffer of one type, and whose effect is on that type alone. -/
theorem Refines.advance (h : Refines forms ops s) {T : VariableType} {b : Buffer C α} {w : Value α}
    (hcount : ∀ T', T' ≠ T → storedCount T' [op] = 0) (hpositive : 0 < storedCount T (ops ++ [op]))
    (hb : b.Stacks T w (storedCount T (ops ++ [op])) (forms T))
    (hother : ∀ T', T' ≠ T → ∀ k v, op.effect T' k v = .ok v)
    (hrows : ∀ k, k < storedCount T ops → op.effect T k ((s.valuesOf T).row k) = .ok (w.row k))
    (hlast : ∀ {x type T'}, op = .insert x type →
      Operation.stored? (.insert x type : Operation C α) = some T' →
      x.value? = some (w.row (storedCount T ops))) :
    Advances forms ops op s ⟨s.buffers.insert (.type T) b⟩ := by
  have hsame : ∀ T', T' ≠ T → storedCount T' (ops ++ [op]) = storedCount T' ops := fun T' hT => by
    rw [storedCount_append, hcount T' hT, Nat.add_zero]
  have hvalues : valuesOf ⟨s.buffers.insert (.type T) b⟩ T = w := by
    rw [valuesOf, Store.buffer, Buffers.buffer_insert, if_pos rfl, hb.stack]
  have hkey : ∀ {T'}, T' ≠ T → Key.type T' ≠ (Key.type T : Key C) := fun hT h => hT (Key.type.inj h)
  refine ⟨fun T' hzero hmem => ?_, fun T' hpos => ?_, fun T' k hk => ?_, fun {x type T'} hop hstored => ?_⟩
  · by_cases hT : T' = T
    · subst hT
      omega
    · obtain ⟨b', hb'⟩ := Table.mem_keys_iff.1 hmem
      rw [Table.get?_insert, if_neg (hkey hT)] at hb'
      exact h.missing T' (hsame T' hT ▸ hzero) (Table.mem_keys_iff.2 ⟨b', hb'⟩)
  · by_cases hT : T' = T
    · subst hT
      rw [hvalues, Store.buffer, Buffers.buffer_insert, if_pos rfl]
      exact hb
    · rw [hsame T' hT] at hpos ⊢
      rw [valuesOf_insert, if_neg hT, Store.buffer, Buffers.buffer_insert, if_neg (hkey hT)]
      exact h.stacked T' hpos
  · by_cases hT : T' = T
    · subst hT
      rw [hvalues]
      exact hrows k hk
    · rw [valuesOf_insert, if_neg hT]
      exact hother T' hT k _
  · by_cases hT : T' = T
    · subst hT
      rw [hvalues]
      exact hlast hop hstored
    · have hzero := hcount T' hT
      rw [storedCount_singleton, hop, if_pos hstored] at hzero
      cases hzero

/-- The buffer to which a value of a type is appended: the type's own, or a new one. -/
def growing (s : Store C α) (T : VariableType) : Buffer C α :=
  if (s.buffer (.type T)).isEmpty then
    { Buffer.empty with content := some (.values T), place := .host }
  else s.buffer (.type T)

/-- What happened when a value was stored. -/
theorem insert_eq_ok {x : Literal α} {type : Option VariableType} {handle : Handle (Item α)}
    (h : s.insert x type = .ok (s', handle)) :
    ∃ T count grown, Operation.stored? (.insert x type : Operation C α) = some T ∧
      (s.growing T).count = .ok count ∧ (s.growing T).append x = .ok grown ∧
      s' = ⟨s.buffers.insert (.type T) grown⟩ ∧ handle = ⟨T, .int count⟩ := by
  obtain ⟨T, hstored, hT⟩ : ∃ T, Operation.stored? (.insert x type : Operation C α) = some T ∧
      s.insert x (some T) = .ok (s', handle) := by
    cases type with
    | some T => exact ⟨T, rfl, h⟩
    | none =>
      obtain ⟨T, hT, h⟩ := Checked.bind_eq_ok h
      exact ⟨T, congrArg Except.toOption hT, h⟩
  replace hT : ((s.growing T).count >>= fun count => (s.growing T).append x >>= fun grown =>
      .ok ((⟨s.buffers.insert (.type T) grown⟩ : Store C α),
        (⟨T, .int count⟩ : Handle (Item α)))) = Except.ok (s', handle) := hT
  obtain ⟨count, hcount, hT⟩ := Checked.bind_eq_ok hT
  obtain ⟨grown, hgrown, hT⟩ := Checked.bind_eq_ok hT
  cases hT
  exact ⟨T, count, grown, hstored, hcount, hgrown, rfl, rfl⟩

omit [FactorFamily C] [Scalar α] in
theorem checkedBuffer_eq_ok [Scalar α] {handle : Handle (Item α)} {b : Buffer C α}
    (h : s.checkedBuffer handle = .ok b) : s.buffer (.type handle.type) = b := by
  unfold checkedBuffer at h
  obtain ⟨_, -, h⟩ := Checked.bind_eq_ok h
  dsimp only at h
  split at h
  next =>
    obtain ⟨_, -, h⟩ := Checked.bind_eq_ok h
    obtain ⟨_, -, h⟩ := Checked.bind_eq_ok h
    exact Except.ok.inj h
  next => exact Except.ok.inj h

/-- A value is stored at the next place of its type. -/
theorem Refines.insert (h : Refines forms ops s) {x : Literal α} {type : Option VariableType}
    (hu : Uniform forms (ops ++ [.insert x type])) {handle : Handle (Item α)}
    (hs : s.insert x type = .ok (s', handle)) :
    ∃ T v, Operation.stored? (.insert x type : Operation C α) = some T ∧ x.value? = some v ∧
      handle = ⟨T, .int (storedCount T ops)⟩ ∧ Advances forms ops (.insert x type) s s' := by
  obtain ⟨T, count, grown, hstored, hcount, hgrown, rfl, rfl⟩ := insert_eq_ok hs
  obtain ⟨v, hv⟩ : ∃ v, x.value? = some v := by
    unfold Buffer.append at hgrown
    obtain ⟨v, hv, -⟩ := Checked.bind_eq_ok hgrown
    exact ⟨v, fitting_eq_ok hv⟩
  have hform : v.form = forms T := hu.form _ [] [] rfl hstored hv rfl
  have hnext : storedCount T (ops ++ [.insert x type]) = storedCount T ops + 1 := by
    rw [storedCount_append, storedCount_singleton, if_pos hstored]
  have hothers : ∀ T', T' ≠ T → storedCount T' [(.insert x type : Operation C α)] = 0 := by
    intro T' hne
    rw [storedCount_singleton, hstored, if_neg fun h => hne (Option.some.inj h).symm]
  obtain ⟨w, hcounted, hw, hrows, hlast⟩ : ∃ w, count = storedCount T ops ∧
      grown.Stacks T w (storedCount T ops + 1) (forms T) ∧
      (∀ k, k < storedCount T ops → w.row k = (s.valuesOf T).row k) ∧
      w.row (storedCount T ops) = v := by
    rcases Nat.eq_zero_or_pos (storedCount T ops) with hzero | hpos
    · have hbuffer : s.buffer (.type T) = .empty := Buffers.buffer_of_not_mem (h.missing T hzero)
      have hgrowing : s.growing T = { Buffer.empty with content := some (.values T), place := .host } := by
        rw [growing, hbuffer]
        rfl
      rw [hgrowing] at hcount hgrown
      obtain ⟨w, hw, hrow⟩ := Buffer.append_first (T := T) rfl rfl (hu.arrays T) hv hform hgrown
      rw [hzero]
      exact ⟨w, (Except.ok.inj hcount).symm, hw, fun k hk => absurd hk (Nat.not_lt_zero k), hrow⟩
    · have hold := h.stacked T hpos
      rw [growing, hold.isEmpty, if_neg Bool.false_ne_true] at hcount hgrown
      obtain ⟨w, hw, hrows, hlast⟩ := hold.append hv hform hgrown
      exact ⟨w, Except.ok.inj (hcount.symm.trans (hold.count (hu.arrays T))), hw, hrows, hlast⟩
  subst hcounted
  refine ⟨T, v, hstored, hv, rfl, h.advance hothers (by omega) (hnext ▸ hw) (fun _ _ _ _ => rfl)
    (fun k hk => ?_) fun hop _ => ?_⟩
  · rw [hrows k hk]
    rfl
  · cases hop
    rw [hlast, hv]

/-- A write replaces one value. -/
theorem Refines.write (h : Refines forms ops s) {handle : Handle (Item α)} {x : Literal α}
    (hu : Uniform forms (ops ++ [.write handle x])) (hs : s.write handle x = .ok s') :
    Advances forms ops (.write handle x) s s' := by
  obtain ⟨k, v, hk, hlt, hv⟩ := hu.single ops [] rfl
  have hold := h.stacked handle.type (by omega)
  unfold Store.write at hs
  obtain ⟨b, hb, hs⟩ := Checked.bind_eq_ok hs
  obtain ⟨b', hb', hs⟩ := Checked.bind_eq_ok hs
  cases hs
  obtain rfl := checkedBuffer_eq_ok hb
  have heffect : ∀ u, (Operation.write handle x : Operation C α).effect handle.type k u = .ok v := by
    intro u
    rw [Operation.effect, if_pos ⟨rfl, hk⟩, hv, fitting_some]
  have hform : v.form = forms handle.type := h.form_effect hu hlt (heffect _)
  obtain ⟨w, hw, hplaced, hrows⟩ := hold.replace (hu.arrays _) hk hlt hv hform hb'
  have hnone : ∀ T, storedCount T [(.write handle x : Operation C α)] = 0 := fun T => by
    rw [storedCount_singleton]
    rfl
  have hsame : storedCount handle.type (ops ++ [.write handle x]) = storedCount handle.type ops := by
    rw [storedCount_append, hnone, Nat.add_zero]
  refine h.advance (fun T _ => hnone T) (by omega) (hsame ▸ hw) (fun T hT j u => ?_) (fun j hj => ?_)
    fun hop => ?_
  · rw [Operation.effect, if_neg fun h => hT h.1.symm]
  · by_cases hjk : j = k
    · subst hjk
      rw [heffect, hplaced]
    · rw [Operation.effect, if_neg fun h => hjk (Option.some.inj (h.2.symm.trans hk)), hrows j hj hjk]
  · cases hop

/-- A move takes all values of the types that it has steps for along their rows. -/
theorem Refines.move (h : Refines forms ops s) {along : Buffers C α}
    (hu : Uniform forms (ops ++ [.move along])) (hs : s.moved along = .ok s') :
    Advances forms ops (.move along) s s' := by
  obtain ⟨hkeys, hbuffers⟩ := moveAlong_spec along.distinct (moveAlong_of_moved hs)
  have hcount : ∀ T, storedCount T (ops ++ [.move along]) = storedCount T ops := fun T => by
    rw [storedCount_append, storedCount_singleton]
    rfl
  have hone : ∀ T, 0 < storedCount T ops → ∃ w,
      (s'.buffer (.type T)).Stacks T w (storedCount T ops) (forms T) ∧
      ∀ k, k < storedCount T ops →
        Operation.effect T k ((s.valuesOf T).row k) (.move along : Operation C α) = .ok (w.row k) := by
    intro T hpos
    have hold := h.stacked T hpos
    rcases hbuffers (.type T) with ⟨step, hmem, -, hmoved⟩ | ⟨hempty, hsame⟩
    · have hstep : along.buffer (.type T) = step :=
        Buffers.buffer_of_get? (Table.get?_eq_some_iff.2 hmem)
      have heffect : ∀ {d}, step.stack = some (.values d) → ∀ k v,
          Operation.effect T k v (.move along : Operation C α) = T.retract v (d.row k) := by
        intro d hd k v
        simp only [Operation.effect, hstep, hd]
      obtain ⟨d, w, hd, hw, hrows⟩ := hold.moved (hu.arrays T) hpos hmoved fun d hd i hi z hz =>
        h.form_effect hu hi ((heffect hd i _).trans hz)
      exact ⟨w, hw, fun k hk => (heffect hd k _).trans (hrows k hk)⟩
    · have hnone : (along.buffer (.type T)).stack = none := by
        by_cases hkey : Key.type T ∈ along.keys
        · obtain ⟨step, hstep⟩ := Table.mem_keys_iff.1 hkey
          rw [Buffers.buffer_of_get? hstep]
          exact Buffer.stack_eq_none (hempty step (Table.get?_eq_some_iff.1 hstep))
        · rw [Buffers.buffer_of_not_mem hkey]
          rfl
      refine ⟨s.valuesOf T, hsame ▸ hold, fun k _ => ?_⟩
      simp only [Operation.effect, hnone]
  have hvalues : ∀ {T w}, (s'.buffer (.type T)).Stacks T w (storedCount T ops) (forms T) →
      s'.valuesOf T = w := fun hw => by rw [valuesOf, hw.stack]
  refine ⟨fun T hzero => ?_, fun T hpos => ?_, fun T k hk => ?_, fun hop => by cases hop⟩
  · rw [hkeys]
    exact h.missing T (hcount T ▸ hzero)
  · rw [hcount] at hpos ⊢
    obtain ⟨w, hw, -⟩ := hone T hpos
    rw [hvalues hw]
    exact hw
  · obtain ⟨w, hw, hrows⟩ := hone T (by omega)
    rw [hvalues hw]
    exact hrows k hk

/-- One operation keeps the invariant. -/
theorem Refines.apply (h : Refines forms ops s) (hu : Uniform forms (ops ++ [op]))
    (hs : op.apply s = .ok s') : Refines forms (ops ++ [op]) s' := by
  refine h.snoc ?_
  cases op with
  | insert x type =>
    obtain ⟨⟨_, handle⟩, hinsert, hs⟩ := Checked.bind_eq_ok hs
    cases hs
    obtain ⟨T, v, -, -, -, hadvances⟩ := h.insert hu hinsert
    exact hadvances
  | write handle x => exact h.write hu hs
  | move along => exact h.move hu hs

theorem run_append (s : Store C α) (ops ops' : List (Operation C α)) :
    s.run (ops ++ ops') = s.run ops >>= fun t => t.run ops' := List.foldlM_append ..

/-- So a run keeps it. -/
theorem Refines.run (hu : Uniform forms ops) (hs : Store.empty.run ops = .ok s) :
    Refines forms ops s := by
  induction ops using List.reverseRecOn generalizing s with
  | nil =>
    cases hs
    exact .empty
  | append_singleton ops op ih =>
    rw [run_append] at hs
    obtain ⟨t, ht, hop⟩ := Checked.bind_eq_ok hs
    obtain ⟨t', ht', hdone⟩ := Checked.bind_eq_ok hop
    cases hdone
    exact (ih hu.init ht).apply hu ht'

/-- The handle of a value that was stored is in range. -/
theorem Refines.checkedBuffer_eq (h : Refines forms ops s) (hu : Uniform forms ops)
    {T : VariableType} {k : Nat} (hk : k < storedCount T ops) :
    s.checkedBuffer ⟨T, .int k⟩ = .ok (s.buffer (.type T)) := by
  have hold := h.stacked T (by omega)
  have hcontains : s.buffers.contains (.type T) = true := by
    rw [Table.contains_iff]
    refine mem_keys_of_content ?_
    rw [show s.buffers.buffer (.type T) = s.buffer (.type T) from rfl, hold.content]
    nofun
  have hrange : (0 ≤ (k : Int) ∧ (k : Int) < storedCount T ops) = True := by simp [hk]
  simp only [checkedBuffer, hcontains, require_true, Checked.ok_bind, hold.count (hu.arrays T), hrange,
    decide_true, Checked.pure_eq_ok]

/-- The value at a handle is read as a row of the buffer. -/
theorem Refines.read (h : Refines forms ops s) (hu : Uniform forms ops) {T : VariableType} {k : Nat}
    (hk : k < storedCount T ops) (hsmall : (k : Int) ≤ Int64.maxValue.toInt) :
    ∃ found, s.read ⟨T, .int k⟩ = .ok found ∧ found.value = (s.valuesOf T).row k := by
  have hold := h.stacked T (by omega)
  have hblock : Item.block? (.int k : Item α) = some (.int k) := by
    have hmin : Int64.minValue.toInt ≤ (k : Int) := by
      have : Int64.minValue.toInt ≤ 0 := by decide
      omega
    rw [Item.block?, if_pos ⟨hmin, hsmall⟩]
  have hplaces : (s.buffer (.type T)).place.places (.int k : Item α) = .ok (.ints (.scalar k)) := by
    cases (s.buffer (.type T)).place <;> exact congrArg fitting hblock
  have hplace : (s.buffer (.type T)).place.access.locate (storedCount T ops)
      ((Tensor.scalar (k : Int)).entry 0) = some k := Access.locate_of_lt hk
  have htake := take_row (hold.shape_cons (hu.arrays T)) rfl hplace
  refine ⟨⟨(s.valuesOf T).row k, (s.buffer (.type T)).place.access⟩, ?_, rfl⟩
  have hget : (s.buffer (.type T)).get (.int k) = .ok (.values ((s.valuesOf T).row k)) := by
    simp only [Buffer.get, hold.stack, Stack.take, hplaces, Checked.ok_bind]
    rw [htake]
    rfl
  rw [Store.read, h.checkedBuffer_eq hu hk, Checked.ok_bind, hget]
  rfl

end Invariant

/-- Values stored, replaced and moved in any order: each store gives the next handle of its type, and
what is read there at the end is the stored value taken through what followed. Every array has a row for
each value of its type. A store or write that fails changes nothing. -/
theorem run_faithful {forms : VariableType → Tree (Kind × Shape)} {ops : List (Operation C α)}
    {s : Store C α} (hu : Uniform forms ops) (small : (ops.length : Int) ≤ Int64.maxValue.toInt)
    (hs : Store.empty.run ops = .ok s) :
    (∀ before x type after, ops = before ++ .insert x type :: after →
      ∃ T v w t t' found, Operation.stored? (.insert x type : Operation C α) = some T ∧
        x.value? = some v ∧ Store.empty.run before = .ok t ∧
        t.insert x type = .ok (t', ⟨T, .int (storedCount T before)⟩) ∧
        follow T (storedCount T before) v after = .ok w ∧
        s.read ⟨T, .int (storedCount T before)⟩ = .ok found ∧ found.value = w) ∧
    (∀ T b, s.buffers.get? (.type T) = some b → ∃ v, b.stack = some (.values v) ∧ v.leaves ≠ [] ∧
      ∀ leaf ∈ v.leaves, leaf.shape.head? = some (storedCount T ops)) ∧
    (∀ name x type, (Machine.perform (.store name x type : Step C α)).Atomic) ∧
    ∀ name h x, (Machine.perform (.write name h x : Step C α)).Atomic := by
  have hrefines := Refines.run hu hs
  refine ⟨fun before x type after hops => ?_, fun T b hb => ?_, Machine.perform_store_atomic,
    Machine.perform_write_atomic⟩
  · -- the run up to the store, and the store itself
    have hsplit : ops = (before ++ [.insert x type]) ++ after := by simp [hops]
    rw [hsplit, run_append] at hs
    obtain ⟨t', ht', -⟩ := Checked.bind_eq_ok hs
    rw [run_append] at ht'
    obtain ⟨t, ht, hop⟩ := Checked.bind_eq_ok ht'
    obtain ⟨_, hop, -⟩ := Checked.bind_eq_ok hop
    obtain ⟨⟨stored, handle⟩, hinsert, -⟩ := Checked.bind_eq_ok hop
    have hprefix : Uniform forms (before ++ [.insert x type]) := (hsplit ▸ hu).left
    obtain ⟨T, v, hstored, hv, rfl, -⟩ := (Refines.run hprefix.init ht).insert hprefix hinsert
    obtain ⟨v', hv', hfollow⟩ := hrefines.follows hops hstored
    obtain rfl : v = v' := Option.some.inj (hv.symm.trans hv')
    have hlt : storedCount T before < storedCount T ops := hops ▸ storedCount_lt hstored
    have hcount : storedCount T ops ≤ ops.length := List.countP_le_length
    obtain ⟨found, hread, hfound⟩ := hrefines.read hu hlt (by omega)
    exact ⟨T, v, _, t, stored, found, hstored, hv, ht, hinsert, hfollow, hread, hfound⟩
  · have hpos : 0 < storedCount T ops := by
      refine Nat.pos_of_ne_zero fun hzero => hrefines.missing T hzero ?_
      exact Table.mem_keys_iff.2 ⟨b, hb⟩
    have hold := hrefines.stacked T hpos
    rw [show s.buffer (.type T) = b from Buffers.buffer_of_get? hb] at hold
    exact ⟨_, hold.stack,
      Value.rowCount_eq_ok.1 (Value.rowCount_of_form hold.rows (hu.arrays T))⟩

/-! ## Vectors over the rationals -/

/-- A vector of the plane. -/
def point (x y : ℚ) : Literal ℚ := .leaf (.array .host (.reals (.vector #[x, y])))

/-- Two points, of which the first is replaced after a move of both, and a label. -/
def journey : List (Operation Catalogue ℚ) :=
  [.insert (point 1 2) none, .insert (.leaf (.int 7)) none, .insert (point 3 4) none,
    .move (.ofList [(.type (.real 2), .ofVectors (.type (.real 2)) (.reals (.generate [2, 2] fun k => k)))]),
    .write ⟨.real 2, .int 0⟩ (point 5 6)]

def journeyForms (T : VariableType) : Tree (Kind × Shape) :=
  if T = .discrete then .leaf (.int, []) else .leaf (.real, [2])

theorem journey_uniform : Uniform journeyForms journey := by
  have hpoint : ∀ {x y : ℚ} {T v}, Operation.stored? (.insert (point x y) none : Operation Catalogue ℚ) =
      some T → (point x y).value? = some v → v.form = journeyForms T := by
    intro x y T v hT hv
    cases hT
    cases hv
    rfl
  refine Uniform.of_each (fun T => ?_) (fun {x type T v} hmem hT hv => ?_)
    (fun op hop T k v w hv hw => ?_) fun before h x after hops => ?_
  · unfold journeyForms
    split <;> simp [Tree.leaves]
  · simp only [journey, List.mem_cons, Operation.insert.injEq, reduceCtorEq, List.not_mem_nil,
      or_false] at hmem
    rcases hmem with ⟨rfl, rfl⟩ | ⟨rfl, rfl⟩ | ⟨rfl, rfl⟩
    · exact hpoint hT hv
    · cases hT
      cases hv
      rfl
    · exact hpoint hT hv
  · simp only [journey, List.mem_cons, List.not_mem_nil, or_false] at hop
    rcases hop with rfl | rfl | rfl | rfl | rfl
    · obtain rfl := Except.ok.inj hw
      exact hv
    · obtain rfl := Except.ok.inj hw
      exact hv
    · obtain rfl := Except.ok.inj hw
      exact hv
    · by_cases hT : T = .real 2
      · subst hT
        obtain ⟨y, hy, hreal⟩ := VariableType.retract_real (t := .real 2) rfl (x := v)
          (d := Tensor.row (.generate [2, 2] fun k => (k : ℚ)) k) hv rfl
        obtain rfl : y = w := Except.ok.inj (hy.symm.trans hw)
        exact hreal
      · have hout : Buffers.buffer (C := Catalogue) (α := ℚ) (.ofList [(.type (.real 2), .ofVectors
            (.type (.real 2)) (.reals (.generate [2, 2] fun k => k)))]) (.type T) = .empty :=
          Buffers.buffer_of_not_mem (by
            show Key.type T ∉ [Key.type (.real 2)]
            simpa using hT)
        simp only [Operation.effect, hout] at hw
        obtain rfl := Except.ok.inj hw
        exact hv
    · by_cases hT : VariableType.real 2 = T ∧ (⟨.real 2, .int 0⟩ : Handle (Item ℚ)).place? = some k
      · rw [Operation.effect, if_pos hT] at hw
        obtain ⟨rfl, -⟩ := hT
        cases hw
        rfl
      · rw [Operation.effect, if_neg hT] at hw
        obtain rfl := Except.ok.inj hw
        exact hv
  · obtain ⟨rfl, rfl, rfl, rfl⟩ : before = journey.take 4 ∧ h = ⟨.real 2, .int 0⟩ ∧
        x = point 5 6 ∧ after = [] := by
      unfold journey at hops ⊢
      rcases before with _ | ⟨_, _ | ⟨_, _ | ⟨_, _ | ⟨_, _ | ⟨_, before⟩⟩⟩⟩⟩ <;> simp at hops ⊢
      · obtain ⟨h₀, h₁, h₂, h₃, ⟨hh, hx⟩, hafter⟩ := hops
        exact ⟨⟨h₀.symm, h₁.symm, h₂.symm, h₃.symm⟩, hh.symm, hx.symm, hafter⟩
    exact ⟨0, _, rfl, by decide, rfl⟩

theorem journey_faithful : ∃ s found w, Store.empty.run journey = .ok s ∧
    follow (.real 2) 1 (.leaf (.reals (.vector #[3, 4]))) (journey.drop 3) = .ok w ∧
    s.read ⟨.real 2, .int 1⟩ = .ok found ∧ found.value = w := by
  have hjourney : journey = journey.take 4 ++ [.write ⟨.real 2, .int 0⟩ (point 5 6)] := rfl
  have hstart : Uniform journeyForms (journey.take 4) := (hjourney ▸ journey_uniform).left
  have hsucceeds : (match Store.empty.run (journey.take 4) with
      | .ok _ => true
      | .error _ => false) = true := by decide +kernel
  obtain ⟨s, hs⟩ : ∃ s, Store.empty.run journey = .ok s := by
    cases h : Store.empty.run (journey.take 4) with
    | ok t =>
      have hrefines := Refines.run hstart h
      have hstored : 0 < storedCount (.real 2) (journey.take 4) := by decide
      obtain ⟨b, -, hb, -⟩ := (hrefines.stacked _ hstored).replace_ok (i := .int 0)
        (x := point 5 6) (y := .leaf (.reals (.vector #[5, 6]))) rfl rfl hstored rfl rfl
      refine ⟨⟨t.buffers.insert (.type (.real 2)) b⟩, ?_⟩
      have hwrite : t.write ⟨.real 2, .int 0⟩ (point 5 6) =
          .ok ⟨t.buffers.insert (.type (.real 2)) b⟩ := by
        rw [Store.write, show t.checkedBuffer ⟨.real 2, .int 0⟩ = .ok (t.buffer (.type (.real 2))) from
          hrefines.checkedBuffer_eq hstart hstored, Checked.ok_bind, hb]
        rfl
      rw [hjourney, run_append, h, Checked.ok_bind]
      show (t.write _ _ >>= pure) = _
      rw [hwrite]
      rfl
    | error e =>
      rw [h] at hsucceeds
      cases hsucceeds
  obtain ⟨T, v, w, t, t', found, hT, hv, -, -, hfollow, hread, hfound⟩ :=
    (run_faithful journey_uniform (by decide) hs).1 (journey.take 2) (point 3 4) none (journey.drop 3) rfl
  cases hT
  cases hv
  exact ⟨s, found, w, hs, hfollow, hread, hfound⟩

/-- Two counted vectors, with a move in between. -/
def counted : List (Operation Catalogue ℚ) :=
  let counts (m n : Int) : Literal ℚ := .leaf (.array .host (.ints (.vector #[m, n])))
  [.insert (counts 1 2) (some (.real 2)),
    .move (.ofList [(.type (.real 2), .ofVectors (.type (.real 2)) (.reals (.generate [1, 2] fun k => k)))]),
    .insert (counts 3 4) (some (.real 2))]

/-- A value without arrays leaves its buffer empty, so the next one gets the same handle; and whole
numbers stored after a move of others become reals, as these did. -/
theorem rows_not_separate :
    (∃ s : Store Catalogue ℚ,
      Store.empty.insert .absent (some (.real 2)) = .ok (s, ⟨.real 2, .int 0⟩) ∧
      s.insert .absent (some (.real 2)) = .ok (s, ⟨.real 2, .int 0⟩) ∧
      ∀ found, s.read ⟨.real 2, .int 0⟩ ≠ .ok found) ∧
    (do
      let s ← Store.empty.run counted
      let found ← s.read ⟨.real 2, .int 1⟩
      return found.value.leaves.map Block.kind).toOption = some [.real] :=
  ⟨⟨_, rfl, rfl, nofun⟩, by decide +kernel⟩

end Store

end LeastSquares
