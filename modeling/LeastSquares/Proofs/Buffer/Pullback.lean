import LeastSquares.Proofs.Buffer.Interpretation
import LeastSquares.Buffer.Pullback

/-!
# The derivative of a scaled inner product

Derivatives pass back through the inner product and through scaling by rules of their own. Chained
through `(x.scaled s).dot y` they give `⟨x, y⟩`, `s y` and `s x`, whatever the tree of arrays and
the kinds of their numbers. That these are the derivatives shows in what is left of a displaced
value: only products of two or three displacements.
-/

namespace LeastSquares

/-- The sum of the products of paired numbers. -/
def pairing {K : Type} [Semiring K] (xs ys : List K) : K := (List.zipWith (· * ·) xs ys).sum

section Pairing

variable {K : Type} [CommRing K]

theorem pairing_comm (xs ys : List K) : pairing xs ys = pairing ys xs := by
  rw [pairing, pairing, List.zipWith_comm]
  simp only [mul_comm]

theorem pairing_scaled (s : K) (xs ys : List K) :
    pairing (xs.map (s * ·)) ys = s * pairing xs ys := by
  rw [pairing, pairing, List.zipWith_map_left]
  simp only [mul_assoc]
  rw [← List.map_zipWith (f := (s * ·)) (g := (· * ·)), List.sum_map_mul_left, List.map_id']

theorem pairing_add {xs ys zs : List K} (h : xs.length = ys.length) (h' : ys.length = zs.length) :
    pairing (List.zipWith (· + ·) xs ys) zs = pairing xs zs + pairing ys zs := by
  induction xs generalizing ys zs with
  | nil =>
    obtain rfl : ys = [] := by simpa using h.symm
    simp [pairing]
  | cons x xs ih =>
    obtain ⟨y, ys, rfl⟩ := List.exists_cons_of_length_eq_add_one h.symm
    obtain ⟨z, zs, rfl⟩ := List.exists_cons_of_length_eq_add_one h'.symm
    have hrest := ih (Nat.succ.inj h) (Nat.succ.inj h')
    simp only [pairing, List.zipWith_cons_cons, List.sum_cons] at hrest ⊢
    rw [hrest]
    ring

/-- What is left of a displaced triple product after its linear part. -/
theorem pairing_displaced {xs ys dxs dys : List K} (s ds : K) (hx : xs.length = dxs.length)
    (hxy : dxs.length = ys.length) (hy : ys.length = dys.length) :
    pairing ((List.zipWith (· + ·) xs dxs).map ((s + ds) * ·)) (List.zipWith (· + ·) ys dys) -
        pairing (xs.map (s * ·)) ys - pairing xs ys * ds - pairing (ys.map (s * ·)) dxs -
        pairing (xs.map (s * ·)) dys =
      ds * pairing xs dys + ds * pairing dxs ys + s * pairing dxs dys + ds * pairing dxs dys := by
  have hsplit : pairing (List.zipWith (· + ·) xs dxs) (List.zipWith (· + ·) ys dys) =
      pairing xs ys + pairing xs dys + (pairing dxs ys + pairing dxs dys) := by
    rw [pairing_add hx (by simp [hxy, hy]), pairing_comm xs, pairing_comm dxs,
      pairing_add hy (by omega), pairing_add hy (by omega)]
    simp only [pairing_comm xs, pairing_comm dxs]
  rw [pairing_scaled, pairing_scaled, pairing_scaled, pairing_scaled, hsplit, pairing_comm ys dxs]
  ring

end Pairing

namespace Block

variable {α : Type} [LinearOrder α] [ExactScalar α]

/-- Arrays of one shape, one of scalars. -/
def Mixed (a b : Block α) : Prop := a.shape = b.shape ∧ Kind.join a.kind b.kind = .real

/-- In the wider kind the arrays are combined as rows of scalars. -/
theorem Mixed.combined {a b : Block α} (h : Mixed a b) {logic : Option (Bool → Bool → Bool)}
    {whole : Int → Int → Int} (f : α → α → α) :
    ∃ u, arith? logic whole f a b = some (.reals u) ∧ u.shape = a.shape ∧
      u.cells.toList = List.zipWith f a.numbers b.numbers := by
  obtain ⟨hshape, hkind⟩ := h
  have hshape' : a.toReals.shape = b.toReals.shape := by rw [shape_toReals, shape_toReals, hshape]
  obtain ⟨u, hu, hushape, hcells⟩ := Tensor.zipWith?_cells (f := f) hshape'
  refine ⟨u, ?_, hushape.trans a.shape_toReals, hcells⟩
  rw [arith?_of_real hkind, hu]
  rfl

theorem Mixed.meets {a b : Block α} (h : Mixed a b) {logic : Option (Bool → Bool → Bool)}
    {whole : Int → Int → Int} {f : α → α → α} : Value.Meets (arith? logic whole f) f a b :=
  let ⟨u, hu, hshape, hcells⟩ := h.combined f
  ⟨h.1, .reals u, hu, isNumeric_reals u, hshape, hcells⟩

theorem Mixed.mul_sum {a b : Block α} (h : Mixed a b) :
    ∃ p, a.mul? b = some p ∧ p.sum = .real (pairing a.numbers b.numbers) := by
  obtain ⟨u, hu, -, hcells⟩ := h.combined (· * ·)
  refine ⟨.reals u, hu, ?_⟩
  rw [sum, Scalar.sum_eq, hcells]
  rfl

theorem add?_real {total : Block α} (hshape : total.shape = []) (x : α) :
    total.add? (.real x) = some (.real (total.value + x)) := by
  obtain ⟨u, hu, hushape, hentry⟩ := zipWith?_of_shape (f := (· + ·)) (s := total.toReals)
    (t := .scalar x) (total.shape_toReals.trans hshape)
  rw [total.shape_toReals, hshape] at hushape
  have hscalar : u = .scalar (total.value + x) := by
    refine Tensor.ext_entry hushape fun k hk => ?_
    obtain rfl : k = 0 := by simpa [hushape] using hk
    exact hentry 0 (by simp [hshape])
  rw [add?, real, arith?_of_real (by simp), toReals_reals, hu, hscalar]
  rfl

theorem scaled_scaled (s t : α) (b : Block α) : scaled s (scaled t b) = scaled (s * t) b := by
  simp only [scaled, toReals_reals, Tensor.map, Array.map_map, Function.comp_def, mul_assoc]

end Block

namespace Value

variable {α : Type} [LinearOrder α] [ExactScalar α] {shapes : Tree Shape} {u v : Value α}

omit [LinearOrder α] [ExactScalar α] in
theorem IsReal.shapes_eq (hv : v.IsReal shapes) : Tree.map Block.shape v = shapes := by
  have hform := congrArg (Tree.map Prod.snd) (show v.form = _ from hv)
  rwa [form, Tree.map_map, Tree.map_map, Tree.map_id] at hform

omit [LinearOrder α] [ExactScalar α] in
theorem mixed_of_real (hu : Tree.map Block.shape u = shapes) (hv : v.IsReal shapes) :
    List.Forall₂ Block.Mixed (Tree.leaves u) (Tree.leaves v) := by
  obtain ⟨ts, hts, hshapes⟩ := hv.leaves
  have hpaired : List.Forall₂ Eq ((Tree.leaves u).map Block.shape) (ts.map (·.shape)) := by
    rw [List.forall₂_eq_eq_eq, hshapes, ← hu, Tree.leaves_map]
  rw [List.forall₂_map_left_iff, List.forall₂_map_right_iff] at hpaired
  rw [hts, List.forall₂_map_right_iff]
  exact hpaired.imp fun b t hshape => ⟨hshape, by simp⟩

omit [LinearOrder α] [ExactScalar α] in
theorem mixed_symm (h : List.Forall₂ Block.Mixed (Tree.leaves u) (Tree.leaves v)) :
    List.Forall₂ Block.Mixed (Tree.leaves v) (Tree.leaves u) :=
  h.flip.imp fun a b ⟨hshape, hkind⟩ => ⟨hshape.symm, by rw [← hkind]; cases a <;> cases b <;> rfl⟩

theorem isReal_scaled (s : α) (hu : Tree.map Block.shape u = shapes) :
    IsReal shapes (Tree.map (Block.scaled s) u) := by
  rw [IsReal, form, Tree.map_map, ← hu, Tree.map_map]
  refine congrArg (Tree.map · u) (funext fun b => ?_)
  exact congrArg (Prod.mk _) (Block.scaled_numeric s b).2.1

end Value

namespace Buffer

variable {C α : Type} [LinearOrder α] [ExactScalar α]

theorem pairing_flatMap_cons {a b : Block α} (h : a.shape = b.shape) (xs ys : List (Block α)) :
    pairing ((a :: xs).flatMap Block.numbers) ((b :: ys).flatMap Block.numbers) =
      pairing a.numbers b.numbers +
        pairing (xs.flatMap Block.numbers) (ys.flatMap Block.numbers) := by
  have hlength : a.numbers.length = b.numbers.length := by
    rw [Block.length_numbers, Block.length_numbers, h]
  rw [List.flatMap_cons, List.flatMap_cons, pairing, List.zipWith_append hlength, List.sum_append]
  rfl

/-- The products of paired arrays, added to a total. -/
theorem foldlM_products {xs ys : List (Block α)} (h : List.Forall₂ Block.Mixed xs ys)
    (x : α) : (xs.zip ys).foldlM (fun (total : Block α) (p : Block α × Block α) => do
        let product ← fitting (p.1.mul? p.2)
        fitting (total.add? product.sum)) (Block.real x) =
      Except.ok (.real (x + pairing (xs.flatMap Block.numbers) (ys.flatMap Block.numbers))) := by
  induction h generalizing x with
  | nil => simp [pairing]
  | @cons a b xs ys hmixed _ ih =>
    obtain ⟨p, hp, hsum⟩ := hmixed.mul_sum
    rw [List.zip_cons_cons, List.foldlM_cons, hp, fitting_some, Checked.ok_bind, hsum,
      Block.add?_real rfl, fitting_some, Checked.ok_bind, ih, pairing_flatMap_cons hmixed.1,
      ← add_assoc]
    rfl

theorem dotLeaves_of_mixed {xs ys : List (Block α)} (h : List.Forall₂ Block.Mixed xs ys)
    (hne : xs ≠ []) : dotLeaves xs ys =
      .ok (.real (pairing (xs.flatMap Block.numbers) (ys.flatMap Block.numbers))) := by
  cases h with
  | nil => exact absurd rfl hne
  | @cons a b xs ys hmixed hrest =>
    obtain ⟨p, hp, hsum⟩ := hmixed.mul_sum
    have hzero : (Block.int 0 : Block α).value = 0 := by
      simp [Block.value, Block.int, Block.toReals, Tensor.entry, Tensor.map, Tensor.scalar]
    rw [dotLeaves, List.zip_cons_cons, List.foldlM_cons]
    dsimp only
    rw [hp, fitting_some, Checked.ok_bind, hsum, Block.add?_real rfl, fitting_some,
      Checked.ok_bind, hzero, zero_add, pairing_flatMap_cons hmixed.1]
    exact foldlM_products hrest _

/-- The buffer holds vectors of a key, in these arrays. -/
structure Carries (b : Buffer C α) (key : Key C) (v : Value α) : Prop where
  content : b.content = some (.vectors key)
  stack : b.stack = some (.values v)

variable {a b : Buffer C α} {key : Key C} {u v : Value α} {n : Nat}

omit [LinearOrder α] [ExactScalar α] in
theorem Carries.count_eq (ha : a.Carries key u) :
    a.count = fitting (Tree.map Block.shape u).leaves.head? >>= fun s => fitting s.head? := by
  rw [count, ha.stack, Tree.leaves_map, List.head?_map]
  show Stack.count (.values u) = _
  rw [Stack.count]
  cases (Tree.leaves u).head? <;> rfl

omit [LinearOrder α] [ExactScalar α] in
theorem Carries.count_congr (ha : a.Carries key u) (hb : b.Carries key v)
    (hshapes : Tree.map Block.shape v = Tree.map Block.shape u) (hn : a.count = .ok n) :
    b.count = .ok n := by
  rw [hb.count_eq, hshapes, ← ha.count_eq, hn]

variable [DecidableEq C] [FactorFamily C]

omit [DecidableEq C] in
theorem Carries.scaled (ha : a.Carries key u) (s : α) :
    ∃ c, a.scaled s = .ok c ∧ c.Carries key (Tree.map (Block.scaled s) u) := by
  refine ⟨a.holding (.values (Tree.map (Block.scaled s) u)) .device, ?_, ha.content, rfl⟩
  rw [Buffer.scaled, ha.stack]
  simp [checkVectors, ha.content]

theorem Carries.add (ha : a.Carries key u) (hb : b.Carries key v) (hn : a.count = .ok n)
    (hv : v.IsReal (Tree.map Block.shape u)) :
    ∃ c w, a.add b = .ok c ∧ c.Carries key w ∧
      Tree.map Block.shape w = Tree.map Block.shape u ∧
      w.cells = List.zipWith (· + ·) u.cells v.cells := by
  have hshapes : Tree.map Block.shape v = Tree.map Block.shape u := hv.shapes_eq
  have hmeets : List.Forall₂ (Value.Meets Block.add? (· + ·)) (Tree.leaves u) (Tree.leaves v) :=
    (Value.mixed_of_real rfl hv).imp fun _ _ h => h.meets
  obtain ⟨w, hw, hnumeric, hcells⟩ :=
    Value.zip?_of_meets (by rw [hv.skeleton, Tree.skeleton_map]) hmeets
  refine ⟨a.holding (.values w) .device, w, ?_, ⟨ha.content, rfl⟩, hnumeric.shapes_eq, hcells⟩
  rw [Buffer.add, isEmpty_of_stack ha.stack, isEmpty_of_stack hb.stack, combine,
    checkCompatible_of_vectors ha.content hb.content hn (ha.count_congr hb hshapes hn), ha.stack,
    hb.stack]
  simp [hw]

theorem Carries.dot (ha : a.Carries key u) (hb : b.Carries key v) (hn : a.count = .ok n)
    (hshapes : Tree.map Block.shape v = Tree.map Block.shape u)
    (hmixed : List.Forall₂ Block.Mixed (Tree.leaves u) (Tree.leaves v)) :
    a.dot b = .ok (.real (pairing u.cells v.cells)) := by
  have hne : Tree.leaves u ≠ [] := by
    intro hnone
    rw [ha.count_eq, Tree.leaves_map, hnone] at hn
    cases hn
  have hdot := dotLeaves_of_mixed hmixed hne
  rw [Buffer.dot, isEmpty_of_stack ha.stack, isEmpty_of_stack hb.stack,
    checkCompatible_of_vectors ha.content hb.content hn (ha.count_congr hb hshapes hn), ha.stack,
    hb.stack]
  exact hdot

/-- The inner product of one buffer at a scale with another. -/
def scaledDot (s : α) (x y : Buffer C α) : Checked (Block α) := do (← x.scaled s).dot y

theorem Carries.scaledDot (ha : a.Carries key u) (hb : b.Carries key v) (hn : a.count = .ok n)
    (hshapes : Tree.map Block.shape v = Tree.map Block.shape u) (s : α) :
    scaledDot s a b = .ok (.real (pairing (u.cells.map (s * ·)) v.cells)) := by
  obtain ⟨c, hc, hcarries⟩ := ha.scaled s
  have hsame := Value.shapes_scaled s u
  have hmixed := Value.mixed_symm (Value.mixed_of_real hshapes (Value.isReal_scaled s rfl))
  rw [Buffer.scaledDot, hc, Checked.ok_bind,
    hcarries.dot hb (ha.count_congr hcarries hsame hn) (hshapes.trans hsame.symm) hmixed,
    Value.cells_scaled]

/-- The derivatives along the three operands, once the operands fit. -/
theorem scaledDotGradient_eq (ha : a.Carries key u) (hb : b.Carries key v) (hn : a.count = .ok n)
    (hshapes : Tree.map Block.shape v = Tree.map Block.shape u) (s : α) :
    ∃ ga gb, scaledDotGradient s a b = .ok (.real (pairing u.cells v.cells), ga, gb) ∧
      ga.Carries key (Tree.map (Block.scaled s) v) ∧
      gb.Carries key (Tree.map (Block.scaled s) u) := by
  have hone : ∀ (t : α) (w : Value α),
      Tree.map (Block.scaled 1) (Tree.map (Block.scaled t) w) = Tree.map (Block.scaled t) w := by
    intro t w
    rw [Tree.map_map]
    simp only [Block.scaled_scaled, one_mul]
  have hcomm : ∀ w : Value α,
      Tree.map (Block.scaled s) (Tree.map (Block.scaled 1) w) = Tree.map (Block.scaled s) w := by
    intro w
    rw [Tree.map_map]
    simp only [Block.scaled_scaled, mul_one]
  obtain ⟨z, hz, hzcarries⟩ := ha.scaled s
  obtain ⟨rateZ, hrateZ, hrateZcarries⟩ := hb.scaled 1
  obtain ⟨rateY, hrateY, hrateYcarries⟩ := hzcarries.scaled 1
  obtain ⟨rateX, hrateX, hrateXcarries⟩ := hrateZcarries.scaled s
  rw [hone] at hrateYcarries
  rw [hcomm] at hrateXcarries
  have hvalue : scaledDot s a b = z.dot b := by rw [Buffer.scaledDot, hz, Checked.ok_bind]
  have hsame : z.sameShapes b = true := by
    have hlists := congrArg Tree.leaves ((Value.shapes_scaled s u).trans hshapes.symm)
    rw [Tree.leaves_map, Tree.leaves_map _ v] at hlists
    rw [sameShapes, hzcarries.stack, hb.stack]
    exact decide_eq_true hlists
  have hrateS : a.dot rateZ = .ok (.real (pairing u.cells v.cells)) := by
    rw [ha.dot hrateZcarries hn ((Value.shapes_scaled _ v).trans hshapes)
      (Value.mixed_of_real rfl (Value.isReal_scaled _ hshapes)), Value.cells_scaled]
    simp
  refine ⟨rateX, rateY, ?_, hrateXcarries, hrateYcarries⟩
  rw [scaledDotGradient, hz, Checked.ok_bind, ← hvalue, ha.scaledDot hb hn hshapes,
    Checked.ok_bind, hsame]
  simp [dotPullback, scaledPullback, hrateZ, hrateY, hrateS, hrateX]

/-- The rules for going back through the inner product and through scaling, chained, are those of
the derivative: along the scale it is the inner product of the operands, along each operand the
other one at the scale, array by array. A displaced value differs from the value and its linear
part by products of two or three displacements. -/
theorem scaledDotGradient_differential {x y : Buffer C α} (hx : x.Carries key u)
    (hy : y.Carries key v) (hshapes : Tree.map Block.shape v = Tree.map Block.shape u)
    (hn : x.count = .ok n) (s : α) :
    ∃ gs gx gy f, scaledDotGradient s x y = .ok (gs, gx, gy) ∧ scaledDot s x y = .ok f ∧
      gs = .real (pairing u.cells v.cells) ∧ gx.Carries key (Tree.map (Block.scaled s) v) ∧
      gy.Carries key (Tree.map (Block.scaled s) u) ∧
      ∀ (ds : α) {dx dy : Buffer C α} {du dv : Value α}, dx.Carries key du → dy.Carries key dv →
        du.IsReal (Tree.map Block.shape u) → dv.IsReal (Tree.map Block.shape u) →
        ∃ x' y' f' px py, x.add dx = .ok x' ∧ y.add dy = .ok y' ∧
          scaledDot (s + ds) x' y' = .ok f' ∧ gx.dot dx = .ok px ∧ gy.dot dy = .ok py ∧
          f'.value - f.value - gs.value * ds - px.value - py.value =
            ds * pairing u.cells dv.cells + ds * pairing du.cells v.cells +
              s * pairing du.cells dv.cells + ds * pairing du.cells dv.cells := by
  obtain ⟨gx, gy, hgradient, hgx, hgy⟩ := scaledDotGradient_eq hx hy hn hshapes s
  refine ⟨_, gx, gy, _, hgradient, hx.scaledDot hy hn hshapes s, rfl, hgx, hgy, ?_⟩
  intro ds dx dy du dv hdx hdy hdu hdv
  obtain ⟨x', u', hx', hu', hushapes, hucells⟩ := hx.add hdx hn hdu
  obtain ⟨y', v', hy', hv', hvshapes, hvcells⟩ :=
    hy.add hdy (hx.count_congr hy hshapes hn) (hshapes ▸ hdv)
  have hgxshapes := (Value.shapes_scaled s v).trans hshapes
  have hgyshapes := Value.shapes_scaled s u
  refine ⟨x', y', _, _, _, hx', hy',
    hu'.scaledDot hv' (hx.count_congr hu' hushapes hn) (hvshapes.trans (hshapes.trans hushapes.symm)) _,
    hgx.dot hdx (hx.count_congr hgx hgxshapes hn) (hdu.shapes_eq.trans hgxshapes.symm)
      (Value.mixed_of_real hgxshapes hdu),
    hgy.dot hdy (hx.count_congr hgy hgyshapes hn) (hdv.shapes_eq.trans hgyshapes.symm)
      (Value.mixed_of_real hgyshapes hdv), ?_⟩
  have hlength : ∀ w : Value α, Tree.map Block.shape w = Tree.map Block.shape u →
      w.cells.length = u.cells.length := fun w hw => by
    rw [Value.length_cells_of_shapes hw, Value.length_cells_of_shapes rfl]
  have hlu := hlength du hdu.shapes_eq
  have hlv := hlength v hshapes
  have hldv := hlength dv hdv.shapes_eq
  rw [hucells, hvcells, Value.cells_scaled, Value.cells_scaled]
  exact pairing_displaced s ds hlu.symm (hlu.trans hlv.symm) (hlv.trans hldv.symm)

/-! ## Vectors in two arrays of two kinds -/

/-- Two rows of two numbers beside two integers, under one key. -/
def mixture : Buffer Catalogue ℚ :=
  .of (.values (.node .tuple [.leaf (.reals (.generate [2, 2] fun k => k + 1)),
    .leaf (.ints (.generate [2] fun k => 3 - k))])) (.vectors (.type (.real 2)))

/-- As many numbers beside truth values. -/
def marked : Buffer Catalogue ℚ :=
  .of (.values (.node .tuple [.leaf (.reals (.generate [2, 2] fun _ => 2)),
    .leaf (.bools (.generate [2] fun k => k = 0))])) (.vectors (.type (.real 2)))

/-- A displacement of all numbers by one. -/
def nudge : Buffer Catalogue ℚ :=
  .of (.values (.node .tuple [.leaf (.reals (.generate [2, 2] fun _ => 1)),
    .leaf (.reals (.generate [2] fun _ => 1))])) (.vectors (.type (.real 2)))

/-- At the scale three the value is 69. Going up by one in the scale and in all numbers leaves 48
beside the linear part. -/
theorem mixture_differential : mixture.count = .ok 2 ∧ ∃ gs gx gy f,
    scaledDotGradient 3 mixture marked = .ok (gs, gx, gy) ∧
    scaledDot 3 mixture marked = .ok f ∧ gs = .real 23 ∧
    ∃ x' y' f' px py, mixture.add nudge = .ok x' ∧ marked.add nudge = .ok y' ∧
      scaledDot (3 + 1) x' y' = .ok f' ∧ gx.dot nudge = .ok px ∧ gy.dot nudge = .ok py ∧
      f'.value - f.value - gs.value * 1 - px.value - py.value = 48 := by
  have hmixture : mixture.Carries (.type (.real 2)) _ := ⟨rfl, rfl⟩
  have hmarked : marked.Carries (.type (.real 2)) _ := ⟨rfl, rfl⟩
  have hnudge : nudge.Carries (.type (.real 2)) _ := ⟨rfl, rfl⟩
  obtain ⟨gs, gx, gy, f, hgradient, hf, hgs, -, -, hdifferential⟩ :=
    scaledDotGradient_differential hmixture hmarked rfl rfl 3
  obtain ⟨x', y', f', px, py, hx', hy', hf', hpx, hpy, hrest⟩ :=
    hdifferential 1 hnudge hnudge rfl rfl
  refine ⟨rfl, gs, gx, gy, f, hgradient, hf, ?_, x', y', f', px, py, hx', hy', hf', hpx, hpy, ?_⟩
  · rw [hgs]
    exact congrArg Block.real (by decide +kernel)
  · rw [hrest]
    decide +kernel

end Buffer

end LeastSquares
