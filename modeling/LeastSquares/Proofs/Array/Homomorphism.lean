import LeastSquares.Proofs.Array.Block
import LeastSquares.Proofs.Manifold.Homomorphism

/-!
# Arrays over other scalars

The operations on arrays go along with a map of scalars. An operation on numbers goes over to arrays
cell by cell or row by row, so it is enough that it does so for numbers and for rows.
-/

namespace LeastSquares

theorem ite_none_map {β γ : Type} {p q : Prop} [Decidable p] [Decidable q] (hpq : p ↔ q)
    {x : Option γ} {y : Option β} {f : β → γ} (h : x = y.map f) :
    (if p then x else none) = (if q then y else none).map f := by
  by_cases hp : p
  · rw [if_pos hp, if_pos (hpq.1 hp), h]
  · rw [if_neg hp, if_neg (mt hpq.2 hp), Option.map_none]

variable {β γ : Type} [Scalar β] [Scalar γ] (φ : ScalarHom β γ)

namespace Tensor

theorem map_map {β γ δ : Type} (t : Tensor β) (f : β → γ) (g : γ → δ) :
    (t.map f).map g = t.map fun x => g (f x) := by
  simp [map]

theorem entry_image (t : Tensor β) (k : Nat) : (t.map φ).entry k = φ (t.entry k) := by
  by_cases hk : k < t.shape.volume
  · exact entry_map hk
  · have hsize : ¬ k < t.cells.size := by rwa [t.size_eq]
    have hsize' : ¬ k < (t.map φ).cells.size := by rwa [(t.map φ).size_eq]
    simp only [entry, Array.getD, dif_neg hsize, dif_neg hsize']
    exact φ.map_default.symm

theorem map_generate (s : Shape) (f : Nat → β) :
    (generate s f).map φ = generate s fun k => φ (f k) :=
  eq_generate rfl fun k hk => by rw [entry_image, entry_generate hk]

theorem broadcast?_map (s : Shape) (t : Tensor β) :
    (t.map φ).broadcast? s = (t.broadcast? s).map (map φ) := by
  simp only [broadcast?, shape_map, entry_image]
  split
  · rfl
  · split
    · exact congrArg some (map_generate ..).symm
    · rfl

/-- An operation cell by cell. -/
theorem zipWith?_map {f : β → β → β} {g : γ → γ → γ} (h : ∀ x y, φ (f x y) = g (φ x) (φ y))
    (s t : Tensor β) : zipWith? g (s.map φ) (t.map φ) = (zipWith? f s t).map (map φ) := by
  have hcells : ∀ (shape : Shape) (s t : Tensor β),
      generate shape (fun k => g ((s.map φ).entry k) ((t.map φ).entry k)) =
        (generate shape fun k => f (s.entry k) (t.entry k)).map φ := by
    intro shape s t
    rw [map_generate]
    simp only [entry_image, h]
  simp only [zipWith?, shape_map, broadcast?_map]
  split
  · exact congrArg some (hcells ..)
  · cases s.shape.join? t.shape with
    | none => rfl
    | some shape =>
      cases hs : s.broadcast? shape with
      | none => simp [hs]
      | some u =>
        cases ht : t.broadcast? shape with
        | none => simp [hs, ht]
        | some v => simp [hs, ht, hcells]

theorem map_ofRows (s : Shape) (width : Nat) (rows : Nat → List β) :
    (ofRows s width rows).map φ = ofRows s width fun k => (rows k).map φ := by
  unfold ofRows
  rw [map_generate]
  refine generate_congr fun k hk => ?_
  have hdiv : k / width < s.volume := by
    rw [Shape.volume_append, Shape.volume_row] at hk
    exact Nat.div_lt_of_lt_mul (by rwa [Nat.mul_comm])
  rw [entry_generate hdiv, entry_generate hdiv, ← φ.map_default]
  exact (List.getD_map _ _ φ).symm

theorem coordinate_map (t : Tensor β) (s : Shape) (k i : Nat) :
    (t.map φ).coordinate s k i = φ (t.coordinate s k i) := entry_image ..

/-- An operation row by row. -/
theorem mapRows_map {f : (Nat → β) → List β} {g : (Nat → γ) → List γ}
    (h : ∀ a, g (fun i => φ (a i)) = (f a).map φ) (width : Nat) (t : Tensor β) :
    (t.map φ).mapRows width g = (t.mapRows width f).map φ := by
  rw [mapRows, mapRows, map_ofRows]
  refine congrArg (ofRows _ width) (funext fun k => ?_)
  rw [← h]
  exact congrArg g (funext fun i => coordinate_map ..)

theorem zipRows?_map {f : (Nat → β) → (Nat → β) → List β} {g : (Nat → γ) → (Nat → γ) → List γ}
    (h : ∀ a b, g (fun i => φ (a i)) (fun i => φ (b i)) = (f a b).map φ) (width : Nat) (s t : Tensor β) :
    zipRows? width g (s.map φ) (t.map φ) = (zipRows? width f s t).map (map φ) := by
  unfold zipRows?
  rw [show (s.map φ).lead.join? (t.map φ).lead = s.lead.join? t.lead from rfl]
  cases s.lead.join? t.lead with
  | none => rfl
  | some shape =>
    refine congrArg some (Eq.trans ?_ (map_ofRows ..).symm)
    refine congrArg (ofRows shape width) (funext fun k => ?_)
    rw [← h]
    exact congrArg₂ g (funext fun i => coordinate_map ..) (funext fun i => coordinate_map ..)

theorem mulVec?_map {dot : List (β × β) → β} {dot' : List (γ × γ) → γ}
    (h : ∀ pairs, dot' (pairs.map fun p => (φ p.1, φ p.2)) = φ (dot pairs)) (a x : Tensor β) :
    mulVec? dot' (a.map φ) (x.map φ) = (mulVec? dot a x).map (map φ) := by
  unfold mulVec?
  simp only [shape_map, entry_image]
  split
  next m n k _ _ =>
    cases Shape.joinExtent? n k with
    | none => rfl
    | some extent =>
      refine congrArg some (Eq.trans ?_ (map_generate ..).symm)
      refine congrArg (generate [m]) (funext fun i => ?_)
      rw [← h, List.map_map]
      rfl
  next => rfl

end Tensor

/-! ## Group elements -/

namespace LieGroup

variable (g : LieGroup)

theorem mul?_map (a b : Tensor β) : g.mul? (a.map φ) (b.map φ) = (g.mul? a b).map (Tensor.map φ) :=
  ite_none_map Iff.rfl (Tensor.zipRows?_map φ (g.mulRow_map φ) ..)

theorem inverse?_map (a : Tensor β) : g.inverse? (a.map φ) = (g.inverse? a).map (Tensor.map φ) :=
  ite_none_map Iff.rfl (congrArg some (Tensor.mapRows_map φ (g.inverseRow_map φ) ..))

theorem exp?_map (d : Tensor β) : g.exp? (d.map φ) = (g.exp? d).map (Tensor.map φ) :=
  ite_none_map Iff.rfl (congrArg some (Tensor.mapRows_map φ (g.expRow_map φ) ..))

theorem log?_map (a : Tensor β) : g.log? (a.map φ) = (g.log? a).map (Tensor.map φ) :=
  ite_none_map Iff.rfl (congrArg some (Tensor.mapRows_map φ (g.logRow_map φ) ..))

theorem moved?_map (a d : Tensor β) :
    g.moved? (a.map φ) (d.map φ) = (g.moved? a d).map (Tensor.map φ) := by
  unfold moved?
  rw [exp?_map]
  cases g.exp? d with
  | none => rfl
  | some e => exact g.mul?_map φ a e

theorem difference?_map (a b : Tensor β) :
    g.difference? (a.map φ) (b.map φ) = (g.difference? a b).map (Tensor.map φ) := by
  unfold difference?
  rw [inverse?_map]
  cases g.inverse? a with
  | none => rfl
  | some back =>
    show (g.mul? (back.map φ) (b.map φ) >>= g.log?) = _
    rw [mul?_map]
    cases hrelative : g.mul? back b with
    | none => simp [hrelative]
    | some relative => simp [hrelative, log?_map]

end LieGroup

/-! ## Blocks -/

namespace Block

omit [Scalar β] [Scalar γ] in
@[simp] theorem kind_mapReals (f : β → γ) (b : Block β) : (b.mapReals f).kind = b.kind := by
  cases b <;> rfl

theorem toReals_map (b : Block β) : (b.mapReals φ).toReals = b.toReals.map φ := by
  cases b with
  | bools t =>
    rw [toReals, Tensor.map_map]
    simp only [φ.map_ofInt]
    rfl
  | ints t =>
    rw [toReals, Tensor.map_map]
    simp only [φ.map_ofInt]
    rfl
  | reals t => rfl

theorem value_map (b : Block β) : (b.mapReals φ).value = φ b.value := by
  rw [value, toReals_map, Tensor.entry_image, value]

theorem arith?_map {logic : Option (Bool → Bool → Bool)} {whole : Int → Int → Int}
    {f : β → β → β} {g : γ → γ → γ} (h : ∀ x y, φ (f x y) = g (φ x) (φ y)) (a b : Block β) :
    arith? logic whole g (a.mapReals φ) (b.mapReals φ) =
      (arith? logic whole f a b).map (mapReals φ) := by
  by_cases hreal : Kind.join a.kind b.kind = .real
  · rw [arith?_of_real (by simpa using hreal), toReals_map, toReals_map, Tensor.zipWith?_map φ h,
      arith?_of_real hreal, Option.map_map, Option.map_map]
    rfl
  · -- neither operand holds scalars
    have hints : ∀ s t : Tensor Int, (Tensor.zipWith? (fun i j => Scalar.wrap γ (whole i j)) s t).map
        (ints : Tensor Int → Block γ) = ((Tensor.zipWith? (fun i j => Scalar.wrap β (whole i j))
          s t).map ints).map (mapReals φ) := fun s t => by
      rw [Option.map_map, φ.wrap_eq]
      rfl
    cases a with
    | reals => exact absurd rfl hreal
    | bools s =>
      cases b with
      | reals => exact absurd rfl hreal
      | ints t => exact hints _ _
      | bools t =>
        cases logic with
        | none => rfl
        | some op =>
          show (Tensor.zipWith? op s t).map _ = ((Tensor.zipWith? op s t).map _).map (mapReals φ)
          rw [Option.map_map]
          rfl
    | ints s =>
      cases b with
      | reals => exact absurd (join_real_right _) hreal
      | ints t | bools t => exact hints _ _

theorem add?_map (a b : Block β) :
    (a.mapReals φ).add? (b.mapReals φ) = (a.add? b).map (mapReals φ) := arith?_map φ φ.map_add a b

theorem sub?_map (a b : Block β) :
    (a.mapReals φ).sub? (b.mapReals φ) = (a.sub? b).map (mapReals φ) := arith?_map φ φ.map_sub a b

theorem mul?_map (a b : Block β) :
    (a.mapReals φ).mul? (b.mapReals φ) = (a.mul? b).map (mapReals φ) := arith?_map φ φ.map_mul a b

theorem dot_map (pairs : List (β × β)) : dot (pairs.map fun p => (φ p.1, φ p.2)) = φ (dot pairs) := by
  induction pairs using List.reverseRecOn with
  | nil => exact φ.map_zero.symm
  | append_singleton pairs p ih =>
    rw [List.map_append, dot, dot, List.foldl_append, List.foldl_append]
    show dot _ + φ p.1 * φ p.2 = φ (dot pairs + p.1 * p.2)
    rw [ih, φ.map_add, φ.map_mul]

theorem mulVec?_map (a x : Block β) :
    (a.mapReals φ).mulVec? (x.mapReals φ) = (a.mulVec? x).map (mapReals φ) := by
  rw [mulVec?, toReals_map, toReals_map, Tensor.mulVec?_map φ (dot_map φ), mulVec?, Option.map_map,
    Option.map_map]
  rfl

theorem sum_map (b : Block β) : (b.mapReals φ).sum = b.sum.mapReals φ := by
  cases b with
  | bools t => rfl
  | ints t => exact congrArg (fun w : Int → Int => ints (.scalar (w _))) φ.wrap_eq
  | reals t => simp [mapReals, sum, real, Tensor.scalar, Tensor.map, φ.map_sum]

theorem scaled_map (x : β) (b : Block β) :
    (b.mapReals φ).scaled (φ x) = (b.scaled x).mapReals φ := by
  rw [scaled, toReals_map, Tensor.map_map]
  show reals _ = reals ((b.toReals.map _).map φ)
  rw [Tensor.map_map]
  simp only [φ.map_mul]

end Block

end LeastSquares
