import LeastSquares.Proofs.Array.Growth
import LeastSquares.Proofs.Array.Number
import LeastSquares.Proofs.Checked

/-!
# The same numbers in wider kinds

An array among others is brought to the widest of their kinds. Its numbers stay what they are, and
arithmetic on numbers gives the same in every kind that is wide enough, provided that no integer is
rounded off: cell by cell, whatever is repeated to a common shape.
-/

namespace LeastSquares

/-! ## Repeated arrays -/

namespace Shape

/-- The cell that stands for another one is there. -/
theorem project_lt {big small : Shape} (h : List.Forall₂ (fun m d => d = 1 ∨ d = m) big small) {k : Nat}
    (hk : k < big.volume) : project big small k < small.volume := by
  induction h generalizing k with
  | nil => exact Nat.one_pos
  | @cons m d big small hd _ ih =>
    have hpos : 0 < volume big := by
      refine Nat.pos_of_ne_zero fun hzero => ?_
      rw [volume_cons, hzero, Nat.mul_zero] at hk
      exact Nat.not_lt_zero _ hk
    have hrest := ih (Nat.mod_lt k hpos)
    rw [project, volume_cons]
    split
    next hone => simpa [hone] using hrest
    next hone =>
      obtain rfl := hd.resolve_left hone
      exact cell_lt ((Nat.div_lt_iff_lt_mul hpos).2 hk) hrest

/-- A shape to which another one can be repeated. -/
theorem forall₂_of_join? {s t : Shape} (h : s.join? t = some t) :
    List.Forall₂ (fun m d => d = 1 ∨ d = m) t (s.padded t.length) := by
  have hlength : ∀ {u : Shape} {rank : Nat}, u.length ≤ rank → (u.padded rank).length = rank := by
    intro u rank hle
    simp [padded, hle]
  have hspec := forall₂_of_mapM h
  have hsize := hspec.length_eq
  rw [List.length_zip, hlength (le_max_left ..), hlength (le_max_right ..), min_self] at hsize
  rw [hsize] at hspec
  have hself : t.padded t.length = t := by simp [padded]
  rw [hself] at hspec
  have hs : (s.padded t.length).length = t.length := hlength (hsize ▸ le_max_left ..)
  refine List.forall₂_iff_get.2 ⟨hs.symm, fun i hi hi' => ?_⟩
  have hget := hspec.get (i := i) (by simpa [hs] using hi) hi
  simp only [List.get_eq_getElem, List.getElem_zip, joinExtent?] at hget ⊢
  grind

/-- The shape to which two arrays are repeated, if they differ. -/
def joint (s t : Shape) : Shape := if s = t then s else (s.join? t).getD []

@[simp] theorem joint_self (s : Shape) : joint s s = s := if_pos rfl

theorem volume_padded (rank : Nat) (s : Shape) : (s.padded rank).volume = s.volume := by
  have hones : ∀ n, volume (List.replicate n 1) = 1 := fun n => by
    induction n with
    | zero => rfl
    | succ n ih => rw [List.replicate_succ, volume_cons, ih]
  rw [padded, volume_append, hones, Nat.one_mul]

end Shape

namespace Tensor

section Image

variable {β β' γ γ' δ ε : Type} [Inhabited β] [Inhabited β'] [Inhabited γ] [Inhabited γ'] {t u : Tensor β}
  {s : Shape}

theorem broadcast?_of_join? (hs : t.shape ≠ s) (hjoin : t.shape.join? s = some s) :
    t.broadcast? s = some (generate s fun k => t.entry (Shape.project s (t.shape.padded s.length) k)) := by
  rw [broadcast?, if_neg hs, if_pos hjoin]

theorem broadcast?_eq_none (hs : t.shape ≠ s) (hjoin : t.shape.join? s ≠ some s) :
    t.broadcast? s = none := by
  rw [broadcast?, if_neg hs, if_neg hjoin]

theorem broadcast?_shape (hs : t.shape = s) : t.broadcast? s = some t := by
  rw [broadcast?, if_pos hs]

theorem shape_broadcast? (h : t.broadcast? s = some u) : u.shape = s := by
  by_cases hs : t.shape = s
  · rw [broadcast?_shape hs] at h
    exact Option.some.inj h ▸ hs
  by_cases hjoin : t.shape.join? s = some s
  · rw [broadcast?_of_join? hs hjoin] at h
    exact Option.some.inj h ▸ rfl
  · rw [broadcast?_eq_none hs hjoin] at h
    cases h

theorem map_generate_of (φ : β → γ) (s : Shape) (f : Nat → β) :
    (generate s f).map φ = generate s fun k => φ (f k) :=
  eq_generate rfl fun k hk => by rw [entry_map hk, entry_generate hk]

theorem broadcast?_image (φ : β → γ) (s : Shape) (t : Tensor β) :
    (t.map φ).broadcast? s = (t.broadcast? s).map (map φ) := by
  by_cases hs : t.shape = s
  · rw [broadcast?_shape hs, broadcast?_shape (t := t.map φ) hs]
    rfl
  by_cases hjoin : t.shape.join? s = some s
  · rw [broadcast?_of_join? hs hjoin, broadcast?_of_join? (t := t.map φ) hs hjoin, Option.map_some,
      map_generate_of]
    refine congrArg some (generate_congr fun k hk => entry_map ?_)
    exact (Shape.project_lt (Shape.forall₂_of_join? hjoin) hk).trans_eq (Shape.volume_padded ..)
  · rw [broadcast?_eq_none hs hjoin, broadcast?_eq_none (t := t.map φ) hs hjoin]
    rfl

/-- An operation whose operands and result are seen in other cells. -/
theorem zipWith?_image [Inhabited δ] [Inhabited ε] {f : β → β' → δ} {g : γ → γ' → ε} {φ : β → γ}
    {ψ : β' → γ'} {χ : δ → ε} (h : ∀ x y, χ (f x y) = g (φ x) (ψ y)) (s : Tensor β) (t : Tensor β') :
    zipWith? g (s.map φ) (t.map ψ) = (zipWith? f s t).map (map χ) := by
  have hcells : ∀ {shape : Shape} {s : Tensor β} {t : Tensor β'}, s.shape = shape → t.shape = shape →
      (generate shape fun k => g ((s.map φ).entry k) ((t.map ψ).entry k)) =
        (generate shape fun k => f (s.entry k) (t.entry k)).map χ := by
    intro shape s t hs ht
    rw [map_generate_of]
    refine generate_congr fun k hk => ?_
    rw [entry_map (hs ▸ hk), entry_map (ht ▸ hk), h]
  by_cases hshape : s.shape = t.shape
  · rw [zipWith?_of_shape_eq hshape, zipWith?_of_shape_eq (s := s.map φ) (t := t.map ψ) hshape]
    exact congrArg some (hcells rfl hshape.symm)
  · rw [zipWith?, zipWith?, if_neg hshape, if_neg (by exact hshape)]
    show (s.shape.join? t.shape >>= fun shape => (s.map φ).broadcast? shape >>= fun s =>
      (t.map ψ).broadcast? shape >>= fun t => some (generate shape fun k => g (s.entry k) (t.entry k))) =
        (s.shape.join? t.shape >>= fun shape => s.broadcast? shape >>= fun s => t.broadcast? shape >>= fun t =>
          some (generate shape fun k => f (s.entry k) (t.entry k))).map (map χ)
    cases s.shape.join? t.shape with
    | none => rfl
    | some shape =>
      simp only [Option.bind_eq_bind, Option.bind_some, broadcast?_image]
      cases hs : s.broadcast? shape with
      | none => rfl
      | some u =>
        cases ht : t.broadcast? shape with
        | none => rfl
        | some v =>
          simp only [Option.map_some, Option.bind_some]
          exact congrArg some (hcells (shape_broadcast? hs) (shape_broadcast? ht))

theorem shape_zipWith? {f : β → γ → δ} {s : Tensor β} {t : Tensor γ} {u : Tensor δ}
    (h : zipWith? f s t = some u) : u.shape = s.shape.joint t.shape := by
  by_cases hshape : s.shape = t.shape
  · rw [zipWith?_of_shape_eq hshape] at h
    rw [← Option.some.inj h, Shape.joint, if_pos hshape, shape_generate]
  · rw [zipWith?, if_neg hshape] at h
    obtain ⟨shape, hjoin, h⟩ := Option.bind_eq_some_iff.1 h
    obtain ⟨s', -, h⟩ := Option.bind_eq_some_iff.1 h
    obtain ⟨t', -, h⟩ := Option.bind_eq_some_iff.1 h
    rw [← Option.some.inj h, Shape.joint, if_neg hshape, hjoin, Option.getD_some, shape_generate]

/-- The places that an index names are there. -/
theorem locate_lt {access : Access} {n place : Nat} {i : Int} (h : access.locate n i = some place) :
    place < n := by
  unfold Access.locate at h
  cases access <;> simp at h <;> omega

theorem take?_image (φ : β → γ) (access : Access) (t : Tensor β) (index : Tensor Int) :
    (t.map φ).take? access index = (t.take? access index).map (map φ) := by
  unfold take?
  rw [shape_map]
  split
  · rfl
  next n tail hshape =>
    cases hplaces : index.cells.mapM (access.locate n) with
    | none => rfl
    | some places =>
      refine congrArg some (Eq.trans (generate_congr fun k hk => entry_map ?_) (map_generate_of φ ..).symm)
      -- the cell lies in one of the rows that the index names
      have hspec : List.Forall₂ (fun i place => access.locate n i = some place) index.cells.toList
          places.toList := by
        refine forall₂_of_mapM ?_
        rw [← Array.toList_mapM, hplaces]
        rfl
      rw [Shape.volume_append] at hk
      have hwidth : 0 < Shape.volume tail := by
        refine Nat.pos_of_ne_zero fun hzero => ?_
        rw [hzero, Nat.mul_zero] at hk
        exact Nat.not_lt_zero _ hk
      have hrow : k / Shape.volume tail < index.cells.toList.length := by
        rw [Array.length_toList, index.size_eq]
        exact (Nat.div_lt_iff_lt_mul hwidth).2 hk
      have hrow' : k / Shape.volume tail < places.size := by
        rw [← Array.length_toList, ← hspec.length_eq]
        exact hrow
      have hplace := locate_lt (hspec.get hrow (by simpa using hrow'))
      rw [hshape, Shape.volume_cons]
      refine Shape.cell_lt ?_ (Nat.mod_lt k hwidth)
      simpa [Array.getD, hrow'] using hplace

end Image

end Tensor

/-! ## Kinds -/

namespace Kind

/-- The kind is as wide as another. -/
def AtLeast (k x : Kind) : Prop := join k x = k

instance (k x : Kind) : Decidable (AtLeast k x) := inferInstanceAs (Decidable (_ = _))

theorem AtLeast.refl (k : Kind) : AtLeast k k := by cases k <;> rfl

theorem AtLeast.join {k x k' x' : Kind} (h : AtLeast k x) (h' : AtLeast k' x') :
    AtLeast (k.join k') (x.join x') := by
  revert h h'
  cases k <;> cases x <;> cases k' <;> cases x' <;> decide

theorem AtLeast.eq_bool {x : Kind} (h : AtLeast .bool x) : x = .bool := by
  revert h
  cases x <;> decide

theorem join_eq_bool {k x : Kind} (h : k.join x = .bool) : k = .bool ∧ x = .bool := by
  revert h
  cases k <;> cases x <;> decide

end Kind

/-! ## Arithmetic -/

namespace Block

section Wider

variable {α : Type} [Scalar α] {a a' b b' : Block α}

/-- The array holds the same numbers, in a kind as wide. -/
structure Wider (b b' : Block α) : Prop where
  numbers : b'.toReals = b.toReals
  kind : b'.kind.AtLeast b.kind

theorem Wider.refl (b : Block α) : b.Wider b := ⟨rfl, .refl _⟩

theorem Wider.shape (h : b.Wider b') : b'.shape = b.shape := by
  rw [← shape_toReals b', h.numbers, shape_toReals]

theorem wider_cast {k : Kind} (h : k.AtLeast b.kind) : b.Wider (b.cast k) :=
  ⟨toReals_cast h, (kind_cast b k).symm ▸ h⟩

theorem Wider.value (h : b.Wider b') : b'.value = b.value := by rw [Block.value, h.numbers, Block.value]

omit [Scalar α] in
theorem shape_take? [Scalar α] {access : Access} {b index u : Block α} (h : b.take? access index = some u) :
    u.shape = index.shape ++ b.shape.tail := by
  have htensor : ∀ {γ : Type} [Inhabited γ] {t u : Tensor γ} {i : Tensor Int}, t.take? access i = some u →
      u.shape = i.shape ++ t.shape.tail := by
    intro γ _ t u i h
    unfold Tensor.take? at h
    split at h
    next => cases h
    next n tail hshape =>
      obtain ⟨places, -, h⟩ := Option.bind_eq_some_iff.1 h
      cases h
      rw [hshape]
      rfl
  obtain ⟨i, hi, h⟩ := Option.bind_eq_some_iff.1 h
  obtain rfl : index = .ints i := by
    cases index with
    | ints t => exact congrArg _ (Option.some.inj hi)
    | bools | reals => cases hi
  cases b with
  | bools | ints | reals =>
    obtain ⟨t, ht, rfl⟩ := Option.map_eq_some_iff.1 h
    exact htensor ht

theorem toReals_take? (access : Access) (b index : Block α) :
    (b.take? access index).map toReals = index.asIndex? >>= fun i => b.toReals.take? access i := by
  unfold take?
  cases index.asIndex? with
  | none => rfl
  | some i =>
    cases b with
    | bools t =>
      refine (Option.map_map ..).trans (Eq.trans ?_ (Tensor.take?_image _ access t i).symm)
      rfl
    | ints t =>
      refine (Option.map_map ..).trans (Eq.trans ?_ (Tensor.take?_image _ access t i).symm)
      rfl
    | reals t => exact (Option.map_map ..).trans Option.map_id'

theorem kind_take? {access : Access} {b index r : Block α} (h : b.take? access index = some r) :
    r.kind = b.kind := by
  obtain ⟨i, -, h⟩ := Option.bind_eq_some_iff.1 h
  cases b with
  | bools | ints | reals =>
    obtain ⟨u, -, rfl⟩ := Option.map_eq_some_iff.1 h
    rfl

theorem Wider.take? (h : b.Wider b') {access : Access} {index r : Block α}
    (hr : b.take? access index = some r) : ∃ r', b'.take? access index = some r' ∧ r.Wider r' := by
  have htake := toReals_take? access b index
  rw [hr, ← h.numbers, ← toReals_take? access b' index] at htake
  obtain ⟨r', hr', heq⟩ := Option.map_eq_some_iff.1 htake.symm
  refine ⟨r', hr', heq, ?_⟩
  rw [kind_take? hr', kind_take? hr]
  exact h.kind

end Wider

variable {α : Type} [LinearOrder α] [ExactScalar α] {a a' b b' r : Block α}

/-- A truth value as a number. -/
def ofBool (x : Bool) : α := Scalar.ofInt (if x then 1 else 0)

section Arithmetic

variable {logic : Option (Bool → Bool → Bool)} {op : Int → Int → Int} {f : α → α → α}

/-- An operation on numbers is one on their images, if it is one on truth values at all. -/
theorem toReals_arith? (whole : ∀ i, Scalar.wrap α i = i) (hcast : ∀ i j : Int, ((op i j : Int) : α) = f i j)
    (hlogic : a.kind.join b.kind = .bool → ∃ l, logic = some l ∧
      ∀ x y, (ofBool (l x y) : α) = f (ofBool x) (ofBool y)) :
    (arith? logic op f a b).map toReals = Tensor.zipWith? f a.toReals b.toReals := by
  have hreals : ∀ {c : Block α}, c.kind = .bool → c.toReals = c.toBools.map ofBool := by
    intro c hc
    cases c with
    | bools => rfl
    | ints | reals => cases hc
  have hints : ∀ {c : Block α}, c.kind ≠ .real → c.toReals = c.toInts.map Scalar.ofInt := by
    intro c hc
    cases c with
    | bools t =>
      show t.map _ = (t.map _).map Scalar.ofInt
      simp [Tensor.map, Function.comp_def]
    | ints => rfl
    | reals => exact absurd rfl hc
  cases hkind : a.kind.join b.kind with
  | bool =>
    obtain ⟨l, rfl, hl⟩ := hlogic hkind
    obtain ⟨ha, hb⟩ := Kind.join_eq_bool hkind
    rw [arith?, hkind, hreals ha, hreals hb, Tensor.zipWith?_image hl]
    exact Option.map_map ..
  | int =>
    have hne : a.kind ≠ .real ∧ b.kind ≠ .real := by
      revert hkind
      cases a.kind <;> cases b.kind <;> decide
    rw [arith?, hkind, hints hne.1, hints hne.2, Tensor.zipWith?_image (f := fun i j =>
      Scalar.wrap α (op i j)) (χ := Scalar.ofInt) fun i j => by
        rw [whole, Scalar.ofInt_eq_cast, Scalar.ofInt_eq_cast, Scalar.ofInt_eq_cast, hcast]]
    exact Option.map_map ..
  | real =>
    rw [arith?_of_real hkind, Option.map_map]
    exact Option.map_id'

omit [LinearOrder α] [ExactScalar α] in
theorem kind_arith? [Scalar α] (h : arith? logic op f a b = some r) : r.kind = a.kind.join b.kind := by
  unfold arith? at h
  split at h
  next hkind =>
    obtain ⟨l, -, h⟩ := Option.bind_eq_some_iff.1 h
    obtain ⟨t, -, rfl⟩ := Option.map_eq_some_iff.1 h
    exact hkind.symm
  next hkind =>
    obtain ⟨t, -, rfl⟩ := Option.map_eq_some_iff.1 h
    exact hkind.symm
  next hkind =>
    obtain ⟨t, -, rfl⟩ := Option.map_eq_some_iff.1 h
    exact hkind.symm

omit [LinearOrder α] [ExactScalar α] in
theorem shape_arith? [Scalar α] (h : arith? logic op f a b = some r) : r.shape = a.shape.joint b.shape := by
  have hbools : ∀ c : Block α, c.toBools.shape = c.shape := fun c => by cases c <;> rfl
  have hints : ∀ c : Block α, c.toInts.shape = c.shape := fun c => by cases c <;> rfl
  unfold arith? at h
  split at h
  next =>
    obtain ⟨l, -, h⟩ := Option.bind_eq_some_iff.1 h
    obtain ⟨t, ht, rfl⟩ := Option.map_eq_some_iff.1 h
    exact (Tensor.shape_zipWith? ht).trans (congrArg₂ Shape.joint (hbools a) (hbools b))
  next =>
    obtain ⟨t, ht, rfl⟩ := Option.map_eq_some_iff.1 h
    exact (Tensor.shape_zipWith? ht).trans (congrArg₂ Shape.joint (hints a) (hints b))
  next =>
    obtain ⟨t, ht, rfl⟩ := Option.map_eq_some_iff.1 h
    exact (Tensor.shape_zipWith? ht).trans (congrArg₂ Shape.joint (shape_toReals a) (shape_toReals b))

/-- Operands in wider kinds give the same numbers. -/
theorem arith?_wider (whole : ∀ i, Scalar.wrap α i = i) (hcast : ∀ i j : Int, ((op i j : Int) : α) = f i j)
    (hlogic : a.kind.join b.kind = .bool → ∀ l, logic = some l →
      ∀ x y, (ofBool (l x y) : α) = f (ofBool x) (ofBool y))
    (ha : a.Wider a') (hb : b.Wider b') (h : arith? logic op f a b = some r) :
    ∃ r', arith? logic op f a' b' = some r' ∧ r.Wider r' := by
  have hmeaning : a.kind.join b.kind = .bool → ∃ l, logic = some l ∧
      ∀ x y, (ofBool (l x y) : α) = f (ofBool x) (ofBool y) := by
    intro hkind
    rw [arith?, hkind] at h
    obtain ⟨l, hl, -⟩ := Option.bind_eq_some_iff.1 h
    exact ⟨l, hl, hlogic hkind l hl⟩
  have hjoin : (a'.kind.join b'.kind).AtLeast (a.kind.join b.kind) := ha.kind.join hb.kind
  have hnumbers := toReals_arith? whole hcast hmeaning
  have hnumbers' := toReals_arith? (a := a') (b := b') whole hcast fun hkind =>
    hmeaning (hkind ▸ hjoin).eq_bool
  rw [ha.numbers, hb.numbers, ← hnumbers, h] at hnumbers'
  obtain ⟨r', hr', heq⟩ := Option.map_eq_some_iff.1 hnumbers'
  refine ⟨r', hr', heq, ?_⟩
  rw [kind_arith? hr', kind_arith? h]
  exact hjoin

end Arithmetic

section Operations

variable (whole : ∀ i, Scalar.wrap α i = i) (ha : a.Wider a') (hb : b.Wider b')
include whole ha hb

theorem add?_wider (hkind : a.kind.join b.kind ≠ .bool) (h : a.add? b = some r) :
    ∃ r', a'.add? b' = some r' ∧ r.Wider r' :=
  arith?_wider whole (fun i j => Int.cast_add i j) (fun hbool => absurd hbool hkind) ha hb h

theorem sub?_wider (h : a.sub? b = some r) : ∃ r', a'.sub? b' = some r' ∧ r.Wider r' :=
  arith?_wider whole (fun i j => Int.cast_sub i j) (fun _ _ => nofun) ha hb h

theorem mul?_wider (h : a.mul? b = some r) : ∃ r', a'.mul? b' = some r' ∧ r.Wider r' := by
  refine arith?_wider whole (fun i j => Int.cast_mul i j) (fun _ l hl x y => ?_) ha hb h
  obtain rfl := Option.some.inj hl
  cases x <;> cases y <;> simp [ofBool]

omit whole in
theorem mulVec?_wider : a'.mulVec? b' = a.mulVec? b := by rw [mulVec?, ha.numbers, hb.numbers, mulVec?]

end Operations

/-! ## Sums -/

section Sums

variable {α : Type} [LinearOrder α] [ExactScalar α] {b b' : Block α}

theorem Wider.numbers_eq (h : b.Wider b') : b'.numbers = b.numbers := by rw [Block.numbers, h.numbers, Block.numbers]

/-- An array without axes holds one number. -/
theorem numbers_of_shape (h : b.shape = []) : b.numbers = [b.value] := by
  have hcells := b.toReals.toList_cells
  rw [shape_toReals, h] at hcells
  rw [numbers, hcells]
  rfl

/-- The sum of the numbers; truth values are counted. -/
theorem value_sum (whole : ∀ i, Scalar.wrap α i = i) (b : Block α) :
    b.sum.shape = [] ∧ b.sum.value = b.numbers.sum := by
  have hnumeric : b.kind ≠ .bool → b.sum.shape = [] ∧ b.sum.value = b.numbers.sum := by
    intro hb
    obtain ⟨-, hshape, hsum⟩ := sum_numeric whole hb
    refine ⟨hshape, ?_⟩
    rw [numbers_of_shape hshape] at hsum
    exact (List.cons.inj hsum).1
  cases b with
  | bools t =>
    refine ⟨rfl, ?_⟩
    have hcount : ∀ (xs : List Bool) (n : Int),
        ((xs.foldl (fun n b => if b then n + 1 else n) n : Int) : α) = n + (xs.map ofBool).sum := by
      intro xs
      induction xs with
      | nil => simp
      | cons x xs ih =>
        intro n
        rw [List.foldl_cons, ih, List.map_cons, List.sum_cons]
        cases x <;> simp [ofBool, add_assoc]
    have hnumbers : (bools t : Block α).numbers = t.cells.toList.map ofBool := by
      rw [numbers, toReals, Tensor.map, Array.toList_map]
      rfl
    have hvalue : ∀ n, (int n : Block α).value = (n : α) := fun n => by
      simp [int, value, toReals, Tensor.entry, Tensor.map, Tensor.scalar]
    rw [hnumbers, ← zero_add (List.sum _), ← Int.cast_zero, ← hcount, Array.foldl_toList]
    exact hvalue _
  | ints | reals => exact hnumeric fun h => by cases h

/-- The squares of the numbers. -/
theorem mul?_self (whole : ∀ i, Scalar.wrap α i = i) (b : Block α) :
    ∃ p, b.mul? b = some p ∧ p.numbers = b.numbers.map (· ^ 2) := by
  have hmul : (b.mul? b).map toReals = Tensor.zipWith? (· * ·) b.toReals b.toReals :=
    toReals_arith? whole (fun i j => Int.cast_mul i j) fun _ =>
      ⟨and, rfl, fun x y => by cases x <;> cases y <;> simp [ofBool]⟩
  obtain ⟨t, ht, -, hcells⟩ := Tensor.zipWith?_cells (f := fun x y : α => x * y) (s := b.toReals) rfl
  rw [ht] at hmul
  obtain ⟨p, hp, rfl⟩ := Option.map_eq_some_iff.1 hmul
  refine ⟨p, hp, hcells.trans ?_⟩
  rw [List.zipWith_self]
  exact List.map_congr_left fun x _ => (sq x).symm

/-- The numbers of an array, row by row. -/
theorem numbers_eq_flatMap {n : Nat} {s : Shape} (h : b.shape = n :: s) :
    b.numbers = (List.range n).flatMap fun i => (b.row i).numbers := by
  have hrow : ∀ i ∈ List.range n, (b.row i).numbers =
      (List.range s.volume).map fun k => b.toReals.entry (i * s.volume + k) := by
    intro i hi
    rw [numbers, Tensor.toList_cells, shape_toReals, shape_row h]
    exact List.map_congr_left fun k hk =>
      entry_toReals_row h (List.mem_range.1 hi) (List.mem_range.1 hk)
  have hcells : ∀ n, (List.range n).flatMap (fun i =>
      (List.range s.volume).map fun k => b.toReals.entry (i * s.volume + k)) =
        (List.range (n * s.volume)).map b.toReals.entry := by
    intro n
    induction n with
    | zero => simp
    | succ n ih =>
      rw [List.range_succ, List.flatMap_append, ih, Nat.succ_mul, List.range_add, List.map_append]
      simp [List.map_map, Function.comp_def]
  rw [List.flatMap_congr hrow, hcells, numbers, Tensor.toList_cells, shape_toReals, h, Shape.volume_cons]

/-- The numbers of a stack are those of its rows. -/
theorem numbers_stack? {bs : List (Block α)} {u : Block α} (h : stack? bs = some u) :
    u.numbers = bs.flatMap numbers := by
  obtain ⟨s, hne, hshape⟩ := shape_eq_of_stack? h
  obtain ⟨u', hu', -, hushape, hrows⟩ := stack?_widest hne hshape
  obtain rfl := Option.some.inj (hu'.symm.trans h)
  have hrow : ∀ i (hi : i < bs.length), (u'.row i).numbers = (bs[i]).numbers := by
    intro i hi
    rw [hrows i hi, (wider_cast (join_widest (List.getElem_mem hi))).numbers_eq]
  rw [numbers_eq_flatMap hushape]
  have hlist : bs = (List.range bs.length).map fun i => bs.getD i (.int 0) := by
    refine List.ext_getElem (by simp) fun i hi _ => ?_
    simp [hi]
  conv_rhs => rw [hlist, List.flatMap_map]
  refine List.flatMap_congr fun i hi => ?_
  rw [hrow i (List.mem_range.1 hi), List.getD_eq_getElem _ _ (List.mem_range.1 hi)]

/-! ## One row of several arrays -/

theorem atLeast_widest {bs bs' : List (Block α)} (h : List.Forall₂ Wider bs bs') :
    (widest bs').AtLeast (widest bs) := by
  have hfold : ∀ {k k' : Kind}, k'.AtLeast k →
      Kind.AtLeast (bs'.foldl (fun k b => Kind.join k b.kind) k')
        (bs.foldl (fun k b => Kind.join k b.kind) k) := by
    induction h with
    | nil => exact fun h => h
    | cons hb _ ih => exact fun hk => ih (hk.join hb.kind)
  exact hfold (.refl .bool)

theorem numbers_flatMap {bs bs' : List (Block α)} (h : List.Forall₂ Wider bs bs') :
    bs'.flatMap numbers = bs.flatMap numbers := by
  induction h with
  | nil => rfl
  | cons hb _ ih => rw [List.flatMap_cons, List.flatMap_cons, ih, hb.numbers_eq]

/-- The arrays in one row, in the widest of their kinds. -/
theorem gather?_concat (bs : List (Block α)) : ∃ u : Block α,
    gather? bs (fun ts => some (Tensor.vector (ts.foldl (fun cells t => cells ++ t.cells) #[]))) = some u ∧
      u.kind = widest bs ∧ u.toReals = Tensor.vector (bs.flatMap numbers).toArray := by
  have hvector : ∀ {γ : Type} (g : Block α → Tensor γ) (φ : γ → α),
      (∀ b ∈ bs, (g b).map φ = b.toReals) →
      (Tensor.vector ((bs.map g).foldl (fun cells t => cells ++ t.cells) #[])).map φ =
        Tensor.vector (bs.flatMap numbers).toArray := by
    intro γ g φ hg
    have hcells : ((bs.map g).foldl (fun cells t => cells ++ t.cells) #[]).map φ =
        (bs.flatMap numbers).toArray := by
      rw [← Array.toList_inj, Array.toList_map, Tensor.toList_concat_cells, List.flatMap_map]
      show ((bs.flatMap fun b => (g b).cells.toList).map φ) = bs.flatMap numbers
      rw [List.map_flatMap]
      refine List.flatMap_congr fun b hb => ?_
      rw [numbers, ← hg b hb, Tensor.map, Array.toList_map]
    rw [← hcells]
    simp [Tensor.vector, Tensor.map]
  have hwide : ∀ b ∈ bs, Kind.join (widest bs) b.kind = widest bs := fun b hb => join_widest hb
  rw [gather?]
  cases hkind : widest bs with
  | bool =>
    refine ⟨_, rfl, rfl, hvector toBools ofBool fun b hb => ?_⟩
    have hb := hkind ▸ hwide b hb
    cases b with
    | bools => rfl
    | ints | reals => cases hb
  | int =>
    refine ⟨_, rfl, rfl, hvector toInts Scalar.ofInt fun b hb => ?_⟩
    exact (toReals_cast (k := .int) (hkind ▸ hwide b hb))
  | real =>
    refine ⟨_, rfl, rfl, ?_⟩
    have hid : ∀ t : Tensor α, t.map id = t := by
      rintro ⟨shape, cells, hsize⟩
      simp [Tensor.map]
    exact (hid _).symm.trans (hvector toReals id fun b _ => hid _)

end Sums

end Block

end LeastSquares
