import LeastSquares.Numeric.Scalar

/-!
# Motions of the plane

Rotations `SO2` and rigid motions `SE2`, with product, inverse, action on points, and the
exponential map and logarithm between tangent vectors and group elements. Nothing is
normalised: the operations are those of the raw parameters.
-/

namespace LeastSquares

structure Vec2 (α : Type) where
  x : α
  y : α

/-- A rotation of the plane: the cosine and sine of its angle. -/
structure SO2 (α : Type) where
  cos : α
  sin : α

/-- A rigid motion of the plane: a rotation, then a translation. -/
structure SE2 (α : Type) where
  rotation : SO2 α
  translation : Vec2 α

/-- A velocity in the plane: linear, then angular. -/
structure Twist2 (α : Type) where
  linear : Vec2 α
  angular : α

namespace Vec2

variable {α : Type}

def read (x : Nat → α) : Vec2 α := ⟨x 0, x 1⟩

def coordinates (p : Vec2 α) : List α := [p.x, p.y]

end Vec2

namespace SO2

variable {α : Type}

def read (x : Nat → α) : SO2 α := ⟨x 0, x 1⟩

def params (r : SO2 α) : List α := [r.cos, r.sin]

end SO2

namespace SE2

variable {α : Type}

def read (x : Nat → α) : SE2 α := ⟨⟨x 0, x 1⟩, ⟨x 2, x 3⟩⟩

def params (a : SE2 α) : List α := a.rotation.params ++ a.translation.coordinates

end SE2

namespace Twist2

variable {α : Type}

def read (x : Nat → α) : Twist2 α := ⟨⟨x 0, x 1⟩, x 2⟩

def coordinates (v : Twist2 α) : List α := v.linear.coordinates ++ [v.angular]

end Twist2

variable {α : Type} [Scalar α]

namespace Vec2

def add (p q : Vec2 α) : Vec2 α := ⟨p.x + q.x, p.y + q.y⟩

def neg (p : Vec2 α) : Vec2 α := ⟨-p.x, -p.y⟩

end Vec2

namespace SO2

def identity : SO2 α := ⟨Scalar.one, Scalar.zero⟩

def exp (angle : α) : SO2 α := ⟨Elementary.cos angle, Elementary.sin angle⟩

def log (r : SO2 α) : α := Elementary.atan2 r.sin r.cos

def mul (a b : SO2 α) : SO2 α :=
  ⟨a.cos * b.cos - a.sin * b.sin, a.sin * b.cos + a.cos * b.sin⟩

def inverse (r : SO2 α) : SO2 α := ⟨r.cos, -r.sin⟩

def apply (r : SO2 α) (p : Vec2 α) : Vec2 α :=
  ⟨r.cos * p.x - r.sin * p.y, r.sin * p.x + r.cos * p.y⟩

end SO2

namespace SE2

def identity : SE2 α := ⟨SO2.identity, ⟨Scalar.zero, Scalar.zero⟩⟩

def mul (a b : SE2 α) : SE2 α :=
  ⟨a.rotation.mul b.rotation, (a.rotation.apply b.translation).add a.translation⟩

def inverse (a : SE2 α) : SE2 α :=
  let back := a.rotation.inverse
  ⟨back, (back.apply a.translation).neg⟩

def apply (a : SE2 α) (p : Vec2 α) : Vec2 α := (a.rotation.apply p).add a.translation

/-- The motion reached by moving with a twist for unit time. -/
def exp (v : Twist2 α) : SE2 α :=
  let w := v.angular
  let (s, c) :=
    if Scalar.within Scalar.small w then
      (Scalar.one - w * w / Scalar.ofInt 6, w / Scalar.two - w * w * w / Scalar.ofInt 24)
    else
      (Elementary.sin w / w, (Scalar.one - Elementary.cos w) / w)
  ⟨SO2.exp w, ⟨s * v.linear.x - c * v.linear.y, c * v.linear.x + s * v.linear.y⟩⟩

def log (a : SE2 α) : Twist2 α :=
  let w := a.rotation.log
  let cosMinusOne := Elementary.cos w - Scalar.one
  let half := w / Scalar.two
  let h :=
    if Scalar.within Scalar.small cosMinusOne then Scalar.one - w * w / Scalar.ofInt 12
    else -(half * Elementary.sin w) / cosMinusOne
  let t := a.translation
  ⟨⟨h * t.x + half * t.y, h * t.y - half * t.x⟩, w⟩

end SE2

end LeastSquares
