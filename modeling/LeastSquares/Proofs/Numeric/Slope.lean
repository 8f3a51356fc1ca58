import LeastSquares.Proofs.Numeric.Exact
import LeastSquares.Numeric.Traced

/-!
# Slopes of traced numbers

The slope of a traced number along an input is read off its trace from the result down, by the chain
rule: it is linear in the slopes of the arguments, with the recorded rates. In exact arithmetic the
backward sweep computes it: what the numbers that still wait have received, each times its slope,
together with what has reached the input, stays the same from step to step.
-/

namespace LeastSquares.Traced

section Values

variable {α : Type} [Scalar α]

omit [Scalar α] in
@[simp] theorem value_const (v : α) : (const v).value = v := rfl

omit [Scalar α] in
@[simp] theorem value_along (v : α) (x : Traced α) (r : α) : (along v x r).value = v := by
  cases x <;> rfl

omit [Scalar α] in
@[simp] theorem value_along₂ (v : α) (x : Traced α) (r : α) (y : Traced α) (s : α) :
    (along₂ v x r y s).value = v := by
  cases x <;> cases y <;> rfl

@[simp] theorem value_add (x y : Traced α) : (x + y).value = x.value + y.value := value_along₂ ..

@[simp] theorem value_sub (x y : Traced α) : (x - y).value = x.value - y.value := value_along₂ ..

@[simp] theorem value_mul (x y : Traced α) : (x * y).value = x.value * y.value := value_along₂ ..

@[simp] theorem value_div (x y : Traced α) : (x / y).value = x.value / y.value := value_along₂ ..

@[simp] theorem value_neg (x : Traced α) : (-x).value = -x.value := value_along ..

@[simp] theorem value_ofInt (i : Int) : (Scalar.ofInt i : Traced α).value = Scalar.ofInt i := rfl

@[simp] theorem value_zero : (Scalar.zero : Traced α).value = Scalar.zero := rfl

@[simp] theorem value_one : (Scalar.one : Traced α).value = Scalar.one := rfl

@[simp] theorem value_two : (Scalar.two : Traced α).value = Scalar.two := rfl

@[simp] theorem value_half : (Scalar.half : Traced α).value = Scalar.half := value_div ..

@[simp] theorem value_small : (Scalar.small : Traced α).value = Scalar.small := rfl

@[simp] theorem value_pi : (Elementary.pi : Traced α).value = Elementary.pi := rfl

@[simp] theorem value_sqrt (x : Traced α) :
    (Elementary.sqrt x).value = Elementary.sqrt x.value := value_along ..

@[simp] theorem value_sin (x : Traced α) :
    (Elementary.sin x).value = Elementary.sin x.value := value_along ..

@[simp] theorem value_cos (x : Traced α) :
    (Elementary.cos x).value = Elementary.cos x.value := value_along ..

@[simp] theorem value_atan2 (y x : Traced α) :
    (Elementary.atan2 y x).value = Elementary.atan2 y.value x.value := value_along₂ ..

omit [Scalar α] in
@[simp] theorem value_ite (p : Prop) [Decidable p] (x y : Traced α) :
    (if p then x else y).value = if p then x.value else y.value := apply_ite ..

/-- Traced numbers are compared by their values. -/
theorem lt_eq (x y : Traced α) : Scalar.lt x y = Scalar.lt x.value y.value :=
  Bool.eq_iff_iff.2 Iff.rfl

theorem within_eq (bound x : Traced α) :
    Scalar.within bound x = Scalar.within bound.value x.value := by
  rw [Scalar.within, Scalar.within, lt_eq, lt_eq, value_neg]

end Values

variable {α : Type} [LinearOrder α] [ExactScalar α]

/-- The derivative along input `i`. -/
def slope : Traced α → Nat → α
  | const _, _ => 0
  | input j _, i => if j = i then 1 else 0
  | image _ _ x r, i => x.slope i * r
  | image₂ _ _ x r y s, i => x.slope i * r + y.slope i * s

/-! ## The backward sweep -/

/-- What the numbers of a list have received, carried on to input `i`. -/
def carried (l : List (Received α)) (i : Nat) : α := (l.map fun r => r.rate * r.number.slope i).sum

theorem carried_hand (x : Traced α) (c : α) (l : List (Received α)) (i : Nat) :
    carried (hand x c l) i = c * x.slope i + carried l i := by
  induction l with
  | nil => simp [hand, carried]
  | cons r rest ih =>
    unfold hand
    split
    · simp [carried]
    · split
      next h =>
        simp only [carried, List.map_cons, List.sum_cons, h.2]
        ring
      next =>
        simp only [carried, List.map_cons, List.sum_cons] at ih ⊢
        rw [ih]
        ring

theorem carried_foldl_hand (results : List (Traced α × α)) (l : List (Received α)) (i : Nat) :
    carried (results.foldl (fun l (x, c) => hand x c l) l) i =
      (results.map fun (x, c) => c * x.slope i).sum + carried l i := by
  induction results generalizing l with
  | nil => simp
  | cons p results ih =>
    rw [List.foldl_cons, ih, carried_hand, List.map_cons, List.sum_cons]
    ring

/-- What has reached input `i`. -/
def reached (inputs : Array (Option α)) (i : Nat) : α := (inputs.getD i none).getD 0

theorem reached_modify (inputs : Array (Option α)) (j : Nat) (c : α) {i : Nat}
    (hi : i < inputs.size) :
    reached (inputs.modify j fun d => some (plus d c)) i =
      (if j = i then c else 0) + reached inputs i := by
  have hplus : ∀ d : Option α, plus d c = c + d.getD 0 := by
    rintro (_ | d)
    · simp [plus]
    · simp [plus, add_comm]
  by_cases h : j = i
  · subst h
    simp [reached, Array.getD, hi, hplus, Array.getElem_modify]
  · simp [reached, Array.getD, hi, h, Array.getElem_modify]

theorem reached_handDown (pending : List (Received α)) (inputs : Array (Option α)) {i : Nat}
    (hi : i < inputs.size) :
    reached (handDown pending inputs) i = carried pending i + reached inputs i := by
  induction pending, inputs using handDown.induct with
  | case1 inputs => simp [handDown, carried]
  | case2 inputs v c rest ih =>
    rw [handDown, ih hi]
    simp [carried, slope]
  | case3 inputs j v c rest ih =>
    rw [handDown, ih (by simpa using hi), reached_modify _ _ _ hi]
    simp only [carried, List.map_cons, List.sum_cons, slope, mul_ite, mul_one, mul_zero]
    ring
  | case4 inputs v h x r c rest ih =>
    rw [handDown, ih hi, carried_hand]
    simp only [carried, List.map_cons, List.sum_cons, slope]
    ring
  | case5 inputs v h x r y s c rest ih =>
    rw [handDown, ih hi, carried_hand, carried_hand]
    simp only [carried, List.map_cons, List.sum_cons, slope]
    ring

/-- The derivative of a combination of results is the combination of their slopes. -/
theorem getD_derivatives (results : List (Traced α × α)) {n i : Nat} (hi : i < n) :
    (derivatives n results).getD i Scalar.zero =
      (results.map fun (x, c) => c * x.slope i).sum := by
  have hget : ∀ a : Array (Option α),
      (a.map (·.getD (Scalar.zero : α))).getD i Scalar.zero = reached a i := by
    intro a
    by_cases h : i < a.size
    · simp [reached, Array.getD, h]
    · simp [reached, Array.getD, h]
  rw [derivatives, hget, slopes, reached_handDown _ _ (by simpa using hi), carried_foldl_hand]
  simp [carried, reached, Array.getD, hi]

/-! ## The chain rule -/

@[simp] theorem slope_along (v : α) (x : Traced α) (r : α) (i : Nat) :
    (along v x r).slope i = x.slope i * r := by
  cases x <;> simp [along, slope]

@[simp] theorem slope_along₂ (v : α) (x : Traced α) (r : α) (y : Traced α) (s : α) (i : Nat) :
    (along₂ v x r y s).slope i = x.slope i * r + y.slope i * s := by
  cases x <;> cases y <;> simp [along₂, along, slope]

@[simp] theorem slope_const (v : α) (i : Nat) : (const v).slope i = 0 := rfl

@[simp] theorem slope_input (j : Nat) (v : α) (i : Nat) :
    (input j v).slope i = if j = i then 1 else 0 := rfl

@[simp] theorem slope_add (x y : Traced α) (i : Nat) : (x + y).slope i = x.slope i + y.slope i := by
  show (along₂ ..).slope i = _
  simp

@[simp] theorem slope_sub (x y : Traced α) (i : Nat) : (x - y).slope i = x.slope i - y.slope i := by
  show (along₂ ..).slope i = _
  simp [sub_eq_add_neg]

@[simp] theorem slope_mul (x y : Traced α) (i : Nat) :
    (x * y).slope i = x.slope i * y.value + y.slope i * x.value := by
  show (along₂ ..).slope i = _
  simp

theorem slope_foldl_add (xs : List (Traced α)) (x : Traced α) (i : Nat) :
    (xs.foldl (· + ·) x).slope i = x.slope i + (xs.map fun y => y.slope i).sum := by
  induction xs generalizing x with
  | nil => simp
  | cons y ys ih => rw [List.foldl_cons, ih, slope_add, List.map_cons, List.sum_cons, add_assoc]

end LeastSquares.Traced
