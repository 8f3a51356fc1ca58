import LeastSquares.Proofs.Value.Tree
import LeastSquares.Proofs.Array.Block
import LeastSquares.Buffer.Basic
import LeastSquares.Catalogue

/-!
# The guard of vector arithmetic

Contents and counts alone tell whether two buffers that both hold something may be combined. Both
must hold vectors, of the same variables or factors, and the arithmetic asks for as many of them;
then it succeeds, and in every other case a rule stops it. Shapes never stand in for contents, and
kinds of arrays matter only to the difference, which truth values do not have.
-/

namespace LeastSquares

/-- The run succeeds where the condition holds, and elsewhere is stopped by a rule. -/
def Checked.Guarded {β : Type} (P : Prop) (x : Checked β) : Prop :=
  (P → ∃ b, x = .ok b) ∧ (¬ P → ∃ rule, x = .error (.broken rule))

theorem Checked.Guarded.bind {β : Type} {P : Prop} {x : Checked Unit} {f : Unit → Checked β}
    (h : Guarded P x) (hf : P → ∃ b, f () = .ok b) : Guarded P (x >>= f) := by
  constructor
  · intro hP
    obtain ⟨u, hu⟩ := h.1 hP
    exact hu ▸ hf hP
  · intro hP
    obtain ⟨rule, hrule⟩ := h.2 hP
    exact ⟨rule, hrule ▸ rfl⟩

namespace Block

variable {α : Type} [Scalar α] {a b : Block α}

@[simp] theorem shape_toInts (b : Block α) : b.toInts.shape = b.shape := by cases b <;> rfl

@[simp] theorem shape_toBools (b : Block α) : b.toBools.shape = b.shape := by cases b <;> rfl

/-- Two arrays of truth values. -/
def Logical (a b : Block α) : Prop := a.kind = .bool ∧ b.kind = .bool

omit [Scalar α] in
theorem join_kind_eq_bool : Kind.join a.kind b.kind = .bool ↔ a.Logical b := by
  cases a <;> cases b <;> simp [Logical, kind, Kind.join]

/-- Arithmetic on arrays of one shape lacks at most a meaning for truth values. -/
theorem exists_arith? (logic : Option (Bool → Bool → Bool)) (whole : Int → Int → Int)
    (op : α → α → α) (h : a.shape = b.shape) (hlogic : logic = none → ¬ a.Logical b) :
    ∃ c, arith? logic whole op a b = some c ∧ c.shape = a.shape := by
  cases hjoin : Kind.join a.kind b.kind with
  | bool =>
    have hcast : a.toBools.shape = b.toBools.shape := by simpa using h
    obtain ⟨combine, rfl⟩ := Option.ne_none_iff_exists'.1
      fun hnone => hlogic hnone (join_kind_eq_bool.1 hjoin)
    refine ⟨_, by simp only [arith?, hjoin, Tensor.zipWith?_of_shape_eq hcast]; rfl, ?_⟩
    exact a.shape_toBools
  | int =>
    have hcast : a.toInts.shape = b.toInts.shape := by simpa using h
    refine ⟨_, by simp only [arith?, hjoin, Tensor.zipWith?_of_shape_eq hcast]; rfl, ?_⟩
    exact a.shape_toInts
  | real =>
    have hcast : a.toReals.shape = b.toReals.shape := by simpa using h
    refine ⟨_, by simp only [arith?, hjoin, Tensor.zipWith?_of_shape_eq hcast]; rfl, ?_⟩
    exact a.shape_toReals

theorem sub?_of_logical (h : a.Logical b) : a.sub? b = none := by
  rw [sub?, arith?, join_kind_eq_bool.2 h]
  rfl

/-- Arrays of one shape can be compared. -/
theorem exists_equal? (h : a.shape = b.shape) : ∃ r, a.equal? b = some r := by
  cases hjoin : Kind.join a.kind b.kind <;>
    simp [equal?, hjoin, Tensor.zipWith?_of_shape_eq, h]

theorem shape_sum (b : Block α) : b.sum.shape = [] := by cases b <;> rfl

end Block

namespace Buffer

variable {C α : Type}

/-- Both buffers hold vectors, of the same variables or factors. -/
def Kindred (a b : Buffer C α) : Prop :=
  ∃ key, a.content = some (.vectors key) ∧ b.content = some (.vectors key)

/-- The buffer holds so many rows of these shapes, in one array or more. -/
def HasRows (b : Buffer C α) (count : Nat) (rows : Tree Shape) : Prop :=
  rows.leaves ≠ [] ∧
    ∃ v, b.stack = some (.values v) ∧ Tree.map Block.shape v = rows.map (count :: ·)

/-- In one place both buffers hold truth values. -/
def Logical (a b : Buffer C α) : Prop :=
  ∃ v w, a.stack = some (.values v) ∧ b.stack = some (.values w) ∧
    ∃ p ∈ (Tree.leaves v).zip (Tree.leaves w), Block.Logical p.1 p.2

/-- The buffers hold vectors of the same variables or factors, and as many. -/
def Matches (a b : Buffer C α) : Prop := a.Kindred b ∧ a.count = b.count

variable {a b : Buffer C α} {m n : Nat} {rows : Tree Shape}

theorem HasRows.count_eq (h : b.HasRows n rows) : b.count = .ok n := by
  obtain ⟨hrows, v, hv, hshapes⟩ := h
  obtain ⟨s, rest, hs⟩ := List.exists_cons_of_ne_nil hrows
  have hleaves : (Tree.leaves v).map Block.shape = (n :: s) :: rest.map (n :: ·) := by
    rw [← Tree.leaves_map, hshapes, Tree.leaves_map, hs, List.map_cons]
  obtain ⟨first, others, hfirst, hshape, -⟩ := List.map_eq_cons_iff.1 hleaves
  rw [count, hv]
  simp [Stack.count, hfirst, hshape]

/-- Values of the same shapes are alike array by array. -/
theorem forall₂_shape {v w : Value α} (h : Tree.map Block.shape v = Tree.map Block.shape w) :
    List.Forall₂ (fun x y : Block α => x.shape = y.shape) (Tree.leaves v) (Tree.leaves w) := by
  have hleaves := (Tree.map_eq_map_iff.1 h).2
  rwa [← List.forall₂_eq_eq_eq, List.forall₂_map_left_iff, List.forall₂_map_right_iff] at hleaves

/-! ## Arithmetic on what the guard lets through -/

variable [Scalar α]

theorem dotLeaves_ok {xs ys : List (Block α)}
    (h : List.Forall₂ (fun x y : Block α => x.shape = y.shape) xs ys) :
    ∃ e, dotLeaves xs ys = .ok e := by
  obtain ⟨e, he, -⟩ := Checked.foldlM_induct (P := fun _ (total : Block α) => total.shape = [])
    (f := fun total (p : Block α × Block α) => do
      let product ← fitting (p.1.mul? p.2)
      fitting (total.add? product.sum))
    (b := Block.int 0) rfl (xs.zip ys) fun done p total hp htotal => by
      obtain ⟨product, hproduct, -⟩ := Block.exists_arith? (some and) (· * ·) (· * ·)
        ((List.forall₂_iff_zip.1 h).2 hp) (by simp)
      obtain ⟨next, hnext, hshape⟩ := Block.exists_arith? (some or) (· + ·) (· + ·)
        (htotal.trans product.shape_sum.symm) (by simp)
      refine ⟨next, ?_, hshape.trans htotal⟩
      rw [Block.mul?, hproduct, fitting_some, Checked.ok_bind, Block.add?, hnext, fitting_some]
  exact ⟨e, he⟩

variable [DecidableEq C] [FactorFamily C]

omit [Scalar α] in
theorem checkContent_guarded (a b : Buffer C α) : (a.checkContent b).Guarded (a.Kindred b) := by
  constructor
  · rintro ⟨key, ha, hb⟩
    exact ⟨(), by simp [checkContent, checkVectors, ha, hb]⟩
  · intro h
    rw [checkContent, checkVectors]
    split
    · rename_i key ha
      have hne : a.content ≠ b.content := fun heq => h ⟨key, ha, heq ▸ ha⟩
      exact ⟨_, by simp [require, hne]; rfl⟩
    · exact ⟨_, rfl⟩

section

variable (hrows : a.Kindred b → ∃ rows m n, a.HasRows m rows ∧ b.HasRows n rows)

include hrows

omit [Scalar α] [DecidableEq C] [FactorFamily C] in
/-- What two buffers of the same vectors hold. -/
theorem exists_values (h : a.Kindred b) :
    ∃ v w m n, a.stack = some (.values v) ∧ b.stack = some (.values w) ∧ a.count = .ok m ∧
      b.count = .ok n ∧ (m = n → Tree.map Block.shape v = Tree.map Block.shape w) := by
  obtain ⟨rows, m, n, ha, hb⟩ := hrows h
  obtain ⟨-, v, hv, hvshapes⟩ := id ha
  obtain ⟨-, w, hw, hwshapes⟩ := id hb
  exact ⟨v, w, m, n, hv, hw, ha.count_eq, hb.count_eq, fun h => by rw [hvshapes, hwshapes, h]⟩

omit [Scalar α] [DecidableEq C] [FactorFamily C] in
theorem Matches.exists_values (h : a.Matches b) :
    ∃ v w, a.stack = some (.values v) ∧ b.stack = some (.values w) ∧
      Tree.map Block.shape v = Tree.map Block.shape w := by
  obtain ⟨v, w, m, n, hv, hw, hm, hn, hshapes⟩ := Buffer.exists_values hrows h.1
  have hcount : (Except.ok m : Checked Nat) = .ok n := hm ▸ hn ▸ h.2
  exact ⟨v, w, hv, hw, hshapes (Except.ok.inj hcount)⟩

omit [Scalar α] in
theorem checkCompatible_guarded : (a.checkCompatible b).Guarded (a.Matches b) := by
  rw [checkCompatible]
  by_cases h : a.Kindred b
  · obtain ⟨u, hu⟩ := (checkContent_guarded a b).1 h
    obtain ⟨v, w, m, n, -, -, hm, hn, -⟩ := exists_values hrows h
    rw [hu, Checked.ok_bind, hm, Checked.ok_bind, hn, Checked.ok_bind]
    constructor
    · rintro ⟨-, hcount⟩
      obtain rfl : m = n := by simpa [hm, hn] using hcount
      exact ⟨(), by simp⟩
    · intro hmatch
      have hne : m ≠ n := fun heq => hmatch ⟨h, by rw [hm, hn, heq]⟩
      exact ⟨.sameCount m n, by simp [require, hne]⟩
  · obtain ⟨rule, hrule⟩ := (checkContent_guarded a b).2 h
    exact ⟨fun hmatch => absurd hmatch.1 h, fun _ => ⟨rule, by rw [hrule]; rfl⟩⟩

omit [Scalar α] in
/-- An operation that combines arrays of one shape combines buffers. -/
theorem combine_guarded {op : Block α → Block α → Option (Block α)}
    (hop : ∀ v w : Value α, a.stack = some (.values v) → b.stack = some (.values w) →
      ∀ p ∈ (Tree.leaves v).zip (Tree.leaves w), p.1.shape = p.2.shape →
        ∃ c, op p.1 p.2 = some c) :
    (combine op a b).Guarded (a.Matches b) := by
  refine (checkCompatible_guarded hrows).bind fun h => ?_
  obtain ⟨v, w, hv, hw, hshapes⟩ := h.exists_values hrows
  obtain ⟨u, hu⟩ := Tree.zip?_ok (f := op) v (Tree.map_eq_map_iff.1 hshapes).1.symm fun p hp =>
    hop v w hv hw p hp ((List.forall₂_iff_zip.1 (forall₂_shape hshapes)).2 hp)
  exact ⟨_, by rw [hv, hw]; simp only [hu]; rfl⟩

/-- Truth values in one place have no difference. -/
theorem combine_sub?_of_logical (h : a.Matches b) (hlogical : a.Logical b) :
    combine Block.sub? a b = misfit := by
  obtain ⟨v, w, hv, hw, p, hp, hbool⟩ := hlogical
  obtain ⟨u, hu⟩ := (checkCompatible_guarded hrows).1 h
  rw [combine, hu, Checked.ok_bind, hv, hw]
  cases hzip : Tree.zip? Block.sub? v w with
  | none => simp only [hzip]; rfl
  | some c =>
    obtain ⟨i, hi, rfl⟩ := List.getElem_of_mem hp
    have hleaves := (Tree.zip?_spec v hzip).2.2
    have hsub := hleaves.get hi (hleaves.length_eq ▸ hi)
    simp only [List.get_eq_getElem, Block.sub?_of_logical hbool] at hsub
    cases hsub

omit [Scalar α] hrows in
/-- What is combined, and the result, have one content. -/
theorem content_of_combine {op : Block α → Block α → Option (Block α)} {c : Buffer C α}
    (h : combine op a b = .ok c) : c.content = a.content ∧ c.content = b.content := by
  obtain ⟨u, hcheck, h⟩ := Checked.bind_eq_ok h
  obtain ⟨u, hcontent, -⟩ := Checked.bind_eq_ok hcheck
  obtain ⟨key, ha, hb⟩ : a.Kindred b := by
    by_contra hkin
    obtain ⟨rule, hrule⟩ := (checkContent_guarded a b).2 hkin
    rw [hrule] at hcontent
    cases hcontent
  have hc : c.content = a.content := by
    split at h
    · obtain ⟨u, -, hu⟩ := Checked.bind_eq_ok h
      cases hu
      rfl
    · cases h
  exact ⟨hc, hc.trans (ha.trans hb.symm)⟩

theorem dot_guarded (ha : a.isEmpty = false) (hb : b.isEmpty = false) :
    (a.dot b).Guarded (a.Matches b) := by
  rw [dot, ha, hb]
  refine (checkCompatible_guarded hrows).bind fun h => ?_
  obtain ⟨v, w, hv, hw, hshapes⟩ := h.exists_values hrows
  rw [hv, hw]
  exact dotLeaves_ok (forall₂_shape hshapes)

/-- Equality asks for the same content, and tells buffers of different counts apart. -/
theorem equal_guarded (ha : a.isEmpty = false) (hb : b.isEmpty = false) :
    (a.equal b).Guarded (a.Kindred b) ∧
      (a.Kindred b → a.count ≠ b.count → a.equal b = .ok false) := by
  constructor
  · rw [equal, ha, hb]
    refine (checkContent_guarded a b).bind fun h => ?_
    obtain ⟨v, w, m, n, hv, hw, hm, hn, hshapes⟩ := exists_values hrows h
    by_cases hcount : m = n
    · obtain ⟨rs, hrs, -⟩ := Checked.mapM_forall₂ (P := fun _ _ => True)
        (f := fun p : Block α × Block α => fitting (p.1.equal? p.2))
        (l := (Tree.leaves v).zip (Tree.leaves w)) fun p hp => by
          obtain ⟨r, hr⟩ := Block.exists_equal?
            ((List.forall₂_iff_zip.1 (forall₂_shape (hshapes hcount))).2 hp)
          exact ⟨r, by rw [hr]; rfl, trivial⟩
      refine ⟨rs.all id, ?_⟩
      simp only [hm, hn, hv, hw, Checked.ok_bind, hcount]
      simp [hrs]
    · exact ⟨false, by simp [hm, hn, hcount]⟩
  · intro h hcount
    obtain ⟨u, hu⟩ := (checkContent_guarded a b).1 h
    obtain ⟨v, w, m, n, -, -, hm, hn, -⟩ := exists_values hrows h
    have hne : m ≠ n := fun heq => hcount (by rw [hm, hn, heq])
    rw [equal, ha, hb, hu]
    simp [hm, hn, hne]

end

/-- Of two buffers that both hold something, sum and inner product are there exactly if they hold
vectors of the same variables or factors, and as many; so is the difference, unless truth values meet
in it; and equality asks for the same content alone. A rule stops everything else, so what two
contents hold is never combined. -/
theorem arithmetic_guarded (ha : a.isEmpty = false) (hb : b.isEmpty = false)
    (hrows : a.Kindred b → ∃ rows m n, a.HasRows m rows ∧ b.HasRows n rows) :
    (a.add b).Guarded (a.Matches b) ∧ (a.dot b).Guarded (a.Matches b) ∧
      (¬ a.Logical b → (a.sub b).Guarded (a.Matches b)) ∧
      (a.Logical b → (a.Matches b → a.sub b = misfit) ∧
        (¬ a.Matches b → ∃ rule, a.sub b = .error (.broken rule))) ∧
      (a.equal b).Guarded (a.Kindred b) ∧
      (a.Kindred b → a.count ≠ b.count → a.equal b = .ok false) ∧
      ∀ c, a.add b = .ok c ∨ a.sub b = .ok c → c.content = a.content ∧ c.content = b.content := by
  have hadd : a.add b = combine Block.add? a b := by simp [add, ha, hb]
  have hsub : a.sub b = combine Block.sub? a b := by simp [sub, ha, hb]
  have hrefused : ¬ a.Matches b → ∃ rule, a.sub b = .error (.broken rule) := by
    intro h
    obtain ⟨rule, hrule⟩ := (checkCompatible_guarded hrows).2 h
    exact ⟨rule, by rw [hsub, combine, hrule]; rfl⟩
  refine ⟨?_, dot_guarded hrows ha hb, fun h => ?_, fun h => ⟨fun hmatch => ?_, hrefused⟩,
    (equal_guarded hrows ha hb).1, (equal_guarded hrows ha hb).2, ?_⟩
  · rw [hadd]
    refine combine_guarded hrows fun v w _ _ p _ hp => ?_
    obtain ⟨c, hc, -⟩ := Block.exists_arith? (some or) (· + ·) (· + ·) hp (by simp)
    exact ⟨c, hc⟩
  · rw [hsub]
    refine combine_guarded hrows fun v w hv hw p hp hshape => ?_
    obtain ⟨c, hc, -⟩ := Block.exists_arith? none (· - ·) (· - ·) hshape
      fun _ hbool => h ⟨v, w, hv, hw, p, hp, hbool⟩
    exact ⟨c, hc⟩
  · rw [hsub]
    exact combine_sub?_of_logical hrows hmatch h
  · rintro c (h | h)
    · exact content_of_combine (hadd ▸ h)
    · exact content_of_combine (hsub ▸ h)

/-- Tangent vectors of the plane's motions and of the rotations of space have three coordinates
each, and are kept apart. -/
theorem tangents_guarded :
    let motion : Buffer Catalogue ℚ := tangentZeros (.lie .se2) 1
    let turn : Buffer Catalogue ℚ := tangentZeros (.lie .so3) 1
    motion.HasRows 1 (.leaf [3]) ∧ turn.HasRows 1 (.leaf [3]) ∧
      (∃ c, motion.add motion = .ok c) ∧ (∃ rule, motion.add turn = .error (.broken rule)) ∧
      ∃ rule, motion.equal turn = .error (.broken rule) := by
  intro motion turn
  have hmotion : motion.HasRows 1 (.leaf [3]) := ⟨by simp [Tree.leaves], _, rfl, rfl⟩
  have hapart : ¬ motion.Kindred turn := by
    rintro ⟨key, hm, ht⟩
    have hkeys : Content.vectors (C := Catalogue) (.type (.lie .se2)) =
        .vectors (.type (.lie .so3)) := Option.some.inj (hm.trans ht.symm)
    simp at hkeys
  refine ⟨hmotion, ⟨by simp [Tree.leaves], _, rfl, rfl⟩, ?_, ?_, ?_⟩
  · exact (arithmetic_guarded (a := motion) (b := motion) rfl rfl
      fun _ => ⟨_, _, _, hmotion, hmotion⟩).1.1 ⟨⟨_, rfl, rfl⟩, rfl⟩
  · exact (arithmetic_guarded (a := motion) (b := turn) rfl rfl
      fun h => absurd h hapart).1.2 fun h => hapart h.1
  · exact (arithmetic_guarded (a := motion) (b := turn) rfl rfl
      fun h => absurd h hapart).2.2.2.2.1.2 hapart

/-- Truth values in the place of a tangent vector. -/
def truths : Buffer Catalogue ℚ :=
  .ofVectors (.type (.real 2)) (.bools (.generate [1, 2] fun k => k = 0))

/-- A difference may fail although contents, counts and shapes agree. -/
theorem not_sub_guarded : ¬ ∀ a b : Buffer Catalogue ℚ, a.isEmpty = false → b.isEmpty = false →
    (a.Kindred b → ∃ rows m n, a.HasRows m rows ∧ b.HasRows n rows) →
      (a.sub b).Guarded (a.Matches b) := by
  intro h
  have hrows : truths.HasRows 1 (.leaf [2]) := ⟨by simp [Tree.leaves], _, rfl, rfl⟩
  obtain ⟨c, hc⟩ := (h truths truths rfl rfl fun _ => ⟨_, _, _, hrows, hrows⟩).1
    ⟨⟨_, rfl, rfl⟩, rfl⟩
  have hmisfit : truths.sub truths = misfit := rfl
  rw [hmisfit] at hc
  cases hc

end Buffer

end LeastSquares
