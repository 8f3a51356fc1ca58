import LeastSquares.Proofs.Buffer.Table
import LeastSquares.Proofs.Edit
import LeastSquares.Graph.Nonlinear

/-!
# Contents without numbers

Buffers have numbers so that a script can tell them apart. What they hold does not depend on these: an
operation on collections that hold the same under the same keys reads the same, and leaves collections
that hold the same again.
-/

namespace LeastSquares

namespace Table

variable {K V W X : Type} [DecidableEq K]

omit [DecidableEq K] in
theorem eq_of_entries {t u : Table K V} (h : t.entries = u.entries) : t = u := by
  cases t
  cases u
  cases h
  rfl

theorem replace_map (f : V → W) (key : K) (v : V) (entries : List (K × V)) :
    replace key (f v) (entries.map fun e => (e.1, f e.2)) =
      (replace key v entries).map fun e => (e.1, f e.2) := by
  induction entries with
  | nil => rfl
  | cons e rest ih =>
    obtain ⟨k, w⟩ := e
    by_cases hk : k = key
    · simp [replace, hk]
    · simp [replace, hk, ih]

/-- A map that keeps the keys goes along with new entries. -/
theorem map_insert (f : V → W) (t : Table K V) (key : K) (v : V) :
    (t.insert key v).map (fun _ => f) = (t.map fun _ => f).insert key (f v) := by
  have h := replace_map f key v t.entries
  simp only [map, insert, h]

omit [DecidableEq K] in
theorem map_map (f : K → W → X) (g : K → V → W) (t : Table K V) :
    (t.map g).map f = t.map fun key v => f key (g key v) := by
  simp only [map, List.map_map, Function.comp_def]

theorem filterMapM_map {m : Type → Type} [Monad m] (f : K → W → m (Option X)) (g : K → V → W)
    (t : Table K V) : (t.map g).filterMapM f = t.filterMapM fun key v => f key (g key v) := by
  simp only [filterMapM, map, List.foldlM_map]

end Table

variable {C α : Type}

/-! ## Buffers -/

namespace Buffer

/-- The buffer without its number. -/
def bare (b : Buffer C α) : Buffer C α := { b with serial := none }

/-- Two buffers hold the same. -/
def Same (a b : Buffer C α) : Prop := a.bare = b.bare

variable {a a' b b' : Buffer C α}

theorem same_refl (b : Buffer C α) : b.Same b := rfl

theorem Same.eq (h : a.Same b) : b = { a with serial := b.serial } := by
  have hstack := congrArg Buffer.stack h
  have hcontent := congrArg Buffer.content h
  have hplace := congrArg Buffer.place h
  obtain ⟨stack, content, place, serial⟩ := b
  simp only [bare] at hstack hcontent hplace
  rw [hstack, hcontent, hplace]

variable [DecidableEq C] [FactorFamily C] [Scalar α]

theorem Same.add (ha : a.Same a') (hb : b.Same b') : Checked.Alike Same (a.add b) (a'.add b') := by
  rw [ha.eq, hb.eq]
  show Checked.Alike Same _ (if a.isEmpty then _ else if b.isEmpty then _ else a.combine Block.add? b)
  unfold Buffer.add
  split
  · exact .ok rfl
  · split
    · exact .ok rfl
    · exact .refl same_refl _

omit [DecidableEq C] in
theorem Same.scaled (h : b.Same b') (s : α) : Checked.Alike Same (b.scaled s) (b'.scaled s) := by
  rw [h.eq]
  obtain ⟨stack, content, place, serial⟩ := b
  cases stack with
  | none => exact .ok rfl
  | some stack => exact .refl same_refl _

theorem Same.sub (ha : a.Same a') (hb : b.Same b') : Checked.Alike Same (a.sub b) (a'.sub b') := by
  have hneg : Checked.Alike Same b.neg b'.neg := hb.scaled _
  rw [ha.eq, hb.eq] at *
  show Checked.Alike Same _ (if b.isEmpty then _ else if a.isEmpty then _ else a.combine Block.sub? b)
  unfold Buffer.sub
  split
  · exact .ok rfl
  · split
    · exact hneg
    · exact .refl same_refl _

end Buffer

/-! ## Collections -/

namespace Buffers

variable [DecidableEq C] {t t' : Buffers C α}

/-- The buffers without their numbers. -/
def bare (t : Buffers C α) : Buffers C α := t.map fun _ => Buffer.bare

/-- Two collections hold the same under the same keys. -/
def Same (t t' : Buffers C α) : Prop := t.bare = t'.bare

omit [DecidableEq C] in
theorem Same.keys (h : t.bare = t'.bare) : t'.keys = t.keys := by
  have hkeys := congrArg Table.keys h
  simp only [bare, Table.keys_map_eq] at hkeys
  exact hkeys.symm

theorem Same.contains (h : t.Same t') (key : Key C) : t'.contains key = t.contains key := by
  rw [Table.contains, Table.contains, Same.keys h]

theorem Same.buffer (h : t.Same t') (key : Key C) : (t.buffer key).Same (t'.buffer key) := by
  have hget := congrArg (Table.get? · key) h
  simp only [bare, Table.get?_map] at hget
  unfold Buffers.buffer
  cases ht : t.get? key with
  | none =>
    rw [ht, Option.map_none, eq_comm, Option.map_eq_none_iff] at hget
    rw [hget]
    rfl
  | some b =>
    rw [ht, Option.map_some, eq_comm, Option.map_eq_some_iff] at hget
    obtain ⟨b', hb', hsame⟩ := hget
    rw [hb']
    exact hsame.symm

theorem Same.insert (h : t.Same t') (key : Key C) {b b' : Buffer C α} (hb : b.Same b') :
    Same (t.insert key b) (t'.insert key b') := by
  unfold Same bare at h ⊢
  rw [Table.map_insert, Table.map_insert, h, hb]

omit [DecidableEq C] in
theorem Same.entries (h : t.bare = t'.bare) :
    List.Forall₂ (fun e e' => e.1 = e'.1 ∧ e.2.Same e'.2) t.entries t'.entries := by
  have hentries := congrArg Table.entries h
  simp only [bare, Table.map] at hentries
  rw [← List.forall₂_eq_eq_eq, List.forall₂_map_left_iff, List.forall₂_map_right_iff] at hentries
  exact hentries.imp fun _ _ heq => Prod.mk.inj heq

/-- Updates by operations that keep contents, along lists that hold the same. -/
theorem alike_update {op : Buffer C α → Buffer C α → Checked (Buffer C α)}
    (hop : ∀ {a a' b b'}, a.Same a' → b.Same b' → Checked.Alike Buffer.Same (op a b) (op a' b'))
    {l l' : List (Key C × Buffer C α)}
    (hl : List.Forall₂ (fun e e' => e.1 = e'.1 ∧ e.2.Same e'.2) l l') :
    Edit.Alike Same Eq (update op l) (update op l') := by
  induction hl with
  | nil => exact Edit.alike_pure rfl
  | cons he _ ih =>
    obtain ⟨hkey, he⟩ := he
    simp only [update, ← hkey]
    refine Edit.alike_get.bind fun t t' ht => ?_
    refine (Edit.alike_lift (hop (ht.buffer _) he)).bind fun b b' hb => ?_
    exact (Edit.alike_modify fun _ _ h => h.insert _ hb).bind fun _ _ _ => ih

omit [DecidableEq C] in
theorem Same.onDevice (h : t.Same t') : Same t.onDevice t'.onDevice := by
  have hbare : ∀ t : Buffers C α, Buffers.onDevice t.bare = Buffers.bare t.onDevice := fun t => by
    rw [Buffers.onDevice, Buffers.onDevice, bare, bare, Table.map_map, Table.map_map]
    rfl
  exact (hbare t).symm.trans ((congrArg Buffers.onDevice h).trans (hbare t'))

end Buffers

/-! ## Stores -/

namespace Store

variable [DecidableEq C] {s s' : Store C α}

/-- Two stores hold the same values. -/
def Same (s s' : Store C α) : Prop := s.buffers.Same s'.buffers

theorem Same.checkedBuffer (h : s.Same s') (a : Handle (Item α)) :
    Checked.Alike Buffer.Same (s.checkedBuffer a) (s'.checkedBuffer a) := by
  have hcontains : s'.buffers.contains (.type a.type) = s.buffers.contains (.type a.type) :=
    Buffers.Same.contains h _
  have hbuffer : (s.buffer (.type a.type)).Same (s'.buffer (.type a.type)) := Buffers.Same.buffer h _
  unfold Store.checkedBuffer
  simp only [hcontains]
  refine Checked.alike_bind _ fun _ => ?_
  rw [hbuffer.eq]
  cases a.index with
  | int i => exact Checked.alike_bind _ fun n => Checked.alike_bind _ fun _ => .ok rfl
  | _ => exact .ok rfl

variable [Scalar α]

theorem Same.read (h : s.Same s') (a : Handle (Item α)) : s'.read a = s.read a := by
  refine (h.checkedBuffer a).bind_eq fun b b' hb => ?_
  rw [hb.eq]
  rfl

theorem Same.bulk (h : s.Same s') : s'.bulk = s.bulk :=
  funext fun a => Same.read (Buffers.Same.onDevice h) a

theorem Same.tangentZeros (h : s.Same s') : s'.tangentZeros = s.tangentZeros := by
  have hbare : ∀ s : Store C α, Store.tangentZeros ⟨s.buffers.bare⟩ = s.tangentZeros := fun s => by
    unfold Store.tangentZeros Buffers.bare
    rw [Table.filterMapM_map]
    rfl
  rw [← hbare s, ← hbare s', show s.buffers.bare = s'.buffers.bare from h]

theorem Same.insert [FactorFamily C] (h : s.Same s') (x : Literal α) (type : Option VariableType) :
    Checked.Alike (fun p q => p.1.Same q.1) (s.insert x type) (s'.insert x type) := by
  have hgrow : ∀ (T : VariableType) {b b' : Buffer C α}, b.Same b' →
      Checked.Alike (fun p q : Store C α × Handle (Item α) => p.1.Same q.1)
        (do let count ← b.count; let grown ← b.append x
            return (⟨s.buffers.insert (.type T) grown⟩, ⟨T, .int count⟩))
        (do let count ← b'.count; let grown ← b'.append x
            return (⟨s'.buffers.insert (.type T) grown⟩, ⟨T, .int count⟩)) := by
    intro T b b' hb
    rw [hb.eq]
    exact Checked.alike_bind b.count fun n => Checked.alike_bind (b.append x) fun c =>
      .ok (Buffers.Same.insert h _ rfl)
  have hinsert : ∀ T, Checked.Alike (fun p q => p.1.Same q.1) (s.insert x (some T))
      (s'.insert x (some T)) := by
    intro T
    refine hgrow T ?_
    have hbuffer : (s.buffer (.type T)).Same (s'.buffer (.type T)) := Buffers.Same.buffer h _
    rw [hbuffer.eq]
    show Buffer.Same _ (if (s.buffer (.type T)).isEmpty then _ else _)
    split <;> rfl
  cases type with
  | some T => exact hinsert T
  | none =>
    exact Checked.alike_bind (VariableType.infer (FactorFamily.tuples C) x) hinsert

theorem Same.write (h : s.Same s') (a : Handle (Item α)) (x : Literal α) :
    Checked.Alike Same (s.write a x) (s'.write a x) := by
  refine (h.checkedBuffer a).bind fun b b' hb => ?_
  rw [hb.eq]
  exact Checked.alike_bind _ fun c => .ok (Buffers.Same.insert h _ rfl)

theorem alike_moveAlong (steps : List (Key C × Buffer C α)) :
    Edit.Alike Same Eq (moveAlong steps) (moveAlong steps) := by
  induction steps with
  | nil => exact Edit.alike_pure rfl
  | cons e rest ih =>
    obtain ⟨key, step⟩ := e
    simp only [moveAlong]
    split
    · refine Edit.alike_get.bind fun s s' hs => ?_
      have hbuffer : (s.buffer key).Same (s'.buffer key) := Buffers.Same.buffer hs key
      refine (Edit.alike_lift (Q := Eq) ?_).bind fun b b' hb => ?_
      · rw [hbuffer.eq]
        exact .refl (fun _ => rfl) _
      · subst hb
        exact (Edit.alike_modify fun s s' hs => Buffers.Same.insert hs key rfl).bind fun _ _ _ => ih
    · exact ih

end Store

/-! ## Vectors -/

namespace Vectors

variable [DecidableEq C] {v v' w w' : Vectors C α}

/-- Two collections hold the same vectors. -/
def Same (v v' : Vectors C α) : Prop := v.buffers.Same v'.buffers

theorem Same.zipWith {op : Buffer C α → Buffer C α → Checked (Buffer C α)}
    (hop : ∀ {a a' b b'}, a.Same a' → b.Same b' → Checked.Alike Buffer.Same (op a b) (op a' b'))
    (h : v.Same v') (hw : w.Same w') : Checked.Alike Same (v.zipWith op w) (v'.zipWith op w') := by
  have hkeys : v'.unionKeys w' = v.unionKeys w := by
    unfold unionKeys
    rw [Buffers.Same.keys h, Buffers.Same.keys hw]
    simp only [Buffers.Same.contains h]
  unfold Vectors.zipWith
  rw [hkeys]
  refine Checked.Alike.bind (Checked.Alike.foldlM (List.forall₂_same.2 fun _ _ => rfl)
    (fun t t' key key' ht hkey => ?_) (R := Buffers.Same) rfl) fun t t' ht => .ok ht
  obtain rfl : key = key' := hkey
  exact (hop (Buffers.Same.buffer h key) (Buffers.Same.buffer hw key)).bind fun b b' hb =>
    .ok (Buffers.Same.insert ht key hb)

theorem alike_updateWith {op : Buffer C α → Buffer C α → Checked (Buffer C α)}
    (hop : ∀ {a a' b b'}, a.Same a' → b.Same b' → Checked.Alike Buffer.Same (op a b) (op a' b'))
    (h : w.Same w') : Edit.Alike Same Eq (updateWith op w) (updateWith op w') := by
  intro v v' hv
  have halike := Buffers.alike_update hop (Buffers.Same.entries h) _ _ hv
  unfold updateWith
  cases hupdate : Buffers.update op w.buffers.entries v.buffers <;>
    cases hupdate' : Buffers.update op w'.buffers.entries v'.buffers <;>
    rw [hupdate, hupdate'] at halike <;> cases halike
  · exact .ok rfl ‹_›
  · exact .error _ ‹_›

omit [DecidableEq C] in
theorem Same.renewed (h : v.Same v') : Same ⟨v.buffers.renewed⟩ ⟨v'.buffers.renewed⟩ := by
  have hbare : ∀ t : Buffers C α, Buffers.renewed t.bare = t.renewed := fun t => by
    rw [Buffers.renewed, Buffers.renewed, Buffers.bare, Table.map_map]
    rfl
  exact congrArg Buffers.bare ((hbare _).symm.trans ((congrArg Buffers.renewed h).trans (hbare _)))

variable [Scalar α]

theorem Same.read (h : v.Same v') (a : Handle (Item α)) : v'.read a = v.read a := by
  have hbuffer : (v.buffer (.type a.type)).Same (v'.buffer (.type a.type)) := Buffers.Same.buffer h _
  unfold Vectors.read
  rw [hbuffer.eq]
  rfl

theorem Same.bulk (h : v.Same v') : v'.bulk = v.bulk :=
  funext fun a => Same.read (Buffers.Same.onDevice h) a

theorem Same.scatterAdd (h : v.Same v') (a : Handle (Item α)) (vectors : Block α) :
    Checked.Alike Same (v.scatterAdd a vectors) (v'.scatterAdd a vectors) := by
  have hbuffer : (v.buffer (.type a.type)).Same (v'.buffer (.type a.type)) := Buffers.Same.buffer h _
  unfold Vectors.scatterAdd
  dsimp only
  rw [hbuffer.eq]
  exact Checked.alike_bind _ fun _ => Checked.alike_bind _ fun rows => Checked.alike_bind _ fun places =>
    Checked.alike_bind _ fun sum => .ok (Buffers.Same.insert h _ rfl)

variable [FactorFamily C]

theorem Same.scaled (h : v.Same v') (s : α) : Checked.Alike Same (v.scaled s) (v'.scaled s) := by
  refine Checked.Alike.bind (Checked.Alike.foldlM (Buffers.Same.entries h) (fun t t' e e' ht he => ?_)
    (R := Buffers.Same) rfl) fun t t' ht => .ok ht
  obtain ⟨key, b⟩ := e
  obtain ⟨key', b'⟩ := e'
  obtain ⟨rfl, hb⟩ := he
  simp only [bind_assoc, Checked.pure_eq_ok, Checked.ok_bind]
  exact (hb.scaled s).bind fun c c' hc => .ok (Buffers.Same.insert ht key hc)

theorem Same.squaredNorm (h : v.Same v') : v'.squaredNorm = v.squaredNorm := by
  refine (Checked.Alike.eq (Checked.Alike.foldlM (Buffers.Same.entries h)
    (fun total total' e e' htotal he => ?_) rfl)).symm
  obtain ⟨key, b⟩ := e
  obtain ⟨key', b'⟩ := e'
  obtain ⟨rfl, hb⟩ := he
  replace hb : b.Same b' := hb
  obtain rfl : total = total' := htotal
  have hours : (v.buffer key).Same (v'.buffer key) := Buffers.Same.buffer h key
  dsimp only
  rw [Buffers.Same.contains h, hours.eq, hb.eq]
  exact .refl (fun _ => rfl) _

end Vectors

end LeastSquares
