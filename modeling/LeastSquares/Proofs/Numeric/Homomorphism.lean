import LeastSquares.Proofs.Numeric.Slope

/-!
# Maps that carry arithmetic over

A map between scalars that goes along with their operations and comparisons. Whatever is computed over
any scalars then goes along with it too: for motions, arrays and values this is said next to each of
them.
-/

namespace LeastSquares

/-- A map of scalars under which each operation becomes the same operation. Comparisons do not see it. -/
structure ScalarHom (β γ : Type) [Scalar β] [Scalar γ] where
  toFun : β → γ
  map_default : toFun default = default
  map_add (x y : β) : toFun (x + y) = toFun x + toFun y
  map_sub (x y : β) : toFun (x - y) = toFun x - toFun y
  map_mul (x y : β) : toFun (x * y) = toFun x * toFun y
  map_div (x y : β) : toFun (x / y) = toFun x / toFun y
  map_neg (x : β) : toFun (-x) = -toFun x
  map_sqrt (x : β) : toFun (Elementary.sqrt x) = Elementary.sqrt (toFun x)
  map_sin (x : β) : toFun (Elementary.sin x) = Elementary.sin (toFun x)
  map_cos (x : β) : toFun (Elementary.cos x) = Elementary.cos (toFun x)
  map_atan2 (y x : β) : toFun (Elementary.atan2 y x) = Elementary.atan2 (toFun y) (toFun x)
  map_pi : toFun Elementary.pi = Elementary.pi
  map_ofInt (i : Int) : toFun (Scalar.ofInt i) = Scalar.ofInt i
  map_ofDecimal (m : Nat) (e : Int) : toFun (Scalar.ofDecimal m e) = Scalar.ofDecimal m e
  lt_eq (x y : β) : Scalar.lt (toFun x) (toFun y) = Scalar.lt x y
  eq_eq (x y : β) : Scalar.eq (toFun x) (toFun y) = Scalar.eq x y
  truncate_eq (x : β) : Elementary.truncate (toFun x) = Elementary.truncate x
  wrap_eq : Scalar.wrap γ = Scalar.wrap β

namespace ScalarHom

variable {β γ : Type} [Scalar β] [Scalar γ]

instance : CoeFun (ScalarHom β γ) fun _ => β → γ := ⟨toFun⟩

attribute [simp] map_default map_add map_sub map_mul map_div map_neg map_sqrt map_sin map_cos map_atan2
  map_pi map_ofInt map_ofDecimal lt_eq eq_eq truncate_eq

variable (φ : ScalarHom β γ)

@[simp] theorem map_zero : φ Scalar.zero = Scalar.zero := φ.map_ofInt 0

@[simp] theorem map_one : φ Scalar.one = Scalar.one := φ.map_ofInt 1

@[simp] theorem map_two : φ Scalar.two = Scalar.two := φ.map_ofInt 2

@[simp] theorem map_half : φ Scalar.half = Scalar.half := by simp [Scalar.half]

@[simp] theorem map_small : φ Scalar.small = Scalar.small := φ.map_ofDecimal 1 (-10)

@[simp] theorem within_eq (bound x : β) : Scalar.within (φ bound) (φ x) = Scalar.within bound x := by
  rw [Scalar.within, Scalar.within, ← φ.map_neg, φ.lt_eq, φ.lt_eq]

@[simp] theorem within_small (x : β) :
    Scalar.within Scalar.small (φ x) = Scalar.within Scalar.small x := by
  rw [← φ.within_eq, φ.map_small]

@[simp] theorem lt_small (x : β) : Scalar.lt (φ x) Scalar.small = Scalar.lt x Scalar.small := by
  rw [← φ.lt_eq, φ.map_small]

@[simp] theorem lt_zero (x : β) : Scalar.lt (φ x) Scalar.zero = Scalar.lt x Scalar.zero := by
  rw [← φ.lt_eq, φ.map_zero]

@[simp] theorem zero_lt (x : β) : Scalar.lt Scalar.zero (φ x) = Scalar.lt Scalar.zero x := by
  rw [← φ.lt_eq, φ.map_zero]

theorem map_ite (p : Prop) [Decidable p] (x y : β) : φ (if p then x else y) = if p then φ x else φ y :=
  apply_ite ..

theorem map_foldl_add (xs : List β) (x : β) :
    φ (xs.foldl (· + ·) x) = (xs.map φ).foldl (· + ·) (φ x) := by
  induction xs generalizing x with
  | nil => rfl
  | cons y ys ih => rw [List.foldl_cons, ih, map_add, List.map_cons, List.foldl_cons]

theorem map_sum (xs : Array β) : φ (Scalar.sum xs) = Scalar.sum (xs.map φ) := by
  rw [Scalar.sum, Scalar.sum, ← Array.foldl_toList, ← Array.foldl_toList, map_foldl_add, map_zero,
    Array.toList_map]

/-- One map after another. -/
def comp {δ : Type} [Scalar δ] (ψ : ScalarHom γ δ) (φ : ScalarHom β γ) : ScalarHom β δ where
  toFun x := ψ (φ x)
  map_default := by simp
  map_add x y := by simp
  map_sub x y := by simp
  map_mul x y := by simp
  map_div x y := by simp
  map_neg x := by simp
  map_sqrt x := by simp
  map_sin x := by simp
  map_cos x := by simp
  map_atan2 y x := by simp
  map_pi := by simp
  map_ofInt i := by simp
  map_ofDecimal m e := by simp
  lt_eq x y := by simp
  eq_eq x y := by simp
  truncate_eq x := by simp
  wrap_eq := ψ.wrap_eq.trans φ.wrap_eq

end ScalarHom

namespace Traced

variable {α : Type} [Scalar α]

/-- Numbers that depend on no input. -/
def constHom : ScalarHom α (Traced α) where
  toFun := const
  map_default := rfl
  map_add _ _ := rfl
  map_sub _ _ := rfl
  map_mul _ _ := rfl
  map_div _ _ := rfl
  map_neg _ := rfl
  map_sqrt _ := rfl
  map_sin _ := rfl
  map_cos _ := rfl
  map_atan2 _ _ := rfl
  map_pi := rfl
  map_ofInt _ := rfl
  map_ofDecimal _ _ := rfl
  lt_eq _ _ := rfl
  eq_eq _ _ := rfl
  truncate_eq _ := rfl
  wrap_eq := rfl

/-- The numbers without their traces. -/
def valueHom : ScalarHom (Traced α) α where
  toFun := value
  map_default := rfl
  map_add := value_add
  map_sub := value_sub
  map_mul := value_mul
  map_div := value_div
  map_neg := value_neg
  map_sqrt := value_sqrt
  map_sin := value_sin
  map_cos := value_cos
  map_atan2 := value_atan2
  map_pi := rfl
  map_ofInt _ := rfl
  map_ofDecimal _ _ := rfl
  lt_eq _ _ := rfl
  eq_eq _ _ := rfl
  truncate_eq _ := rfl
  wrap_eq := rfl

end Traced

end LeastSquares
