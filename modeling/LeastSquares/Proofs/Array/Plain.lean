import LeastSquares.Proofs.Array.Homomorphism

/-!
# Arrays without traces

What is computed from the values of traced arrays are the values of what is computed from the arrays.
-/

namespace LeastSquares

variable {α : Type} [Scalar α]

namespace Tensor

/-- The values of the cells. -/
def plain (t : Tensor (Traced α)) : Tensor α := t.map Traced.value

omit [Scalar α] in
@[simp] theorem shape_plain (t : Tensor (Traced α)) : t.plain.shape = t.shape := rfl

theorem entry_plain (t : Tensor (Traced α)) (k : Nat) : t.plain.entry k = (t.entry k).value :=
  entry_image Traced.valueHom t k

theorem plain_generate (s : Shape) (f : Nat → Traced α) :
    (generate s f).plain = generate s fun k => (f k).value := map_generate Traced.valueHom s f

end Tensor

namespace LieGroup

theorem moved?_plain (g : LieGroup) (a d : Tensor (Traced α)) :
    g.moved? a.plain d.plain = (g.moved? a d).map Tensor.plain := g.moved?_map Traced.valueHom a d

theorem difference?_plain (g : LieGroup) (a b : Tensor (Traced α)) :
    g.difference? a.plain b.plain = (g.difference? a b).map Tensor.plain :=
  g.difference?_map Traced.valueHom a b

end LieGroup

namespace Block

/-- The block with the values of its numbers. -/
def plain (b : Block (Traced α)) : Block α := b.mapReals Traced.value

omit [Scalar α] in
@[simp] theorem kind_plain (b : Block (Traced α)) : b.plain.kind = b.kind := kind_mapReals ..

omit [Scalar α] in
@[simp] theorem shape_plain (b : Block (Traced α)) : b.plain.shape = b.shape := by cases b <;> rfl

omit [Scalar α] in
theorem plain_still (b : Block α) : (b.mapReals Traced.const).plain = b := by
  cases b with
  | reals t =>
    obtain ⟨shape, cells, _⟩ := t
    have hconst : (Traced.value ∘ Traced.const : α → α) = id := rfl
    simp [mapReals, plain, Tensor.map, hconst]
  | bools | ints => rfl

theorem toReals_plain (b : Block (Traced α)) : b.plain.toReals = b.toReals.plain :=
  toReals_map Traced.valueHom b

theorem add?_plain (a b : Block (Traced α)) : a.plain.add? b.plain = (a.add? b).map plain :=
  add?_map Traced.valueHom a b

theorem sub?_plain (a b : Block (Traced α)) : a.plain.sub? b.plain = (a.sub? b).map plain :=
  sub?_map Traced.valueHom a b

theorem mul?_plain (a b : Block (Traced α)) : a.plain.mul? b.plain = (a.mul? b).map plain :=
  mul?_map Traced.valueHom a b

theorem mulVec?_plain (a x : Block (Traced α)) : a.plain.mulVec? x.plain = (a.mulVec? x).map plain :=
  mulVec?_map Traced.valueHom a x

end Block

end LeastSquares
