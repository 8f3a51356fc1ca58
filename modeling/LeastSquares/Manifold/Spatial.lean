import LeastSquares.Numeric.Scalar

/-!
# Motions of space

Rotations `SO3`, as quaternions, and rigid motions `SE3`, with product, inverse, action on
points, and the exponential map and logarithm. Nothing is normalised: a point is rotated by
the product of a quaternion, the point and the conjugate quaternion, whatever the norm.
-/

namespace LeastSquares

structure Vec3 (α : Type) where
  x : α
  y : α
  z : α

/-- A rotation of space: a quaternion with real part `w`. -/
structure SO3 (α : Type) where
  w : α
  x : α
  y : α
  z : α

/-- A rigid motion of space: a rotation, then a translation. -/
structure SE3 (α : Type) where
  rotation : SO3 α
  translation : Vec3 α

/-- A velocity in space: linear, then angular. -/
structure Twist3 (α : Type) where
  linear : Vec3 α
  angular : Vec3 α

/-- A matrix with three rows and three columns, by its rows. -/
structure Mat3 (α : Type) where
  x : Vec3 α
  y : Vec3 α
  z : Vec3 α

namespace Vec3

variable {α : Type}

def read (x : Nat → α) : Vec3 α := ⟨x 0, x 1, x 2⟩

def coordinates (p : Vec3 α) : List α := [p.x, p.y, p.z]

end Vec3

namespace SO3

variable {α : Type}

def read (x : Nat → α) : SO3 α := ⟨x 0, x 1, x 2, x 3⟩

def params (q : SO3 α) : List α := [q.w, q.x, q.y, q.z]

end SO3

namespace SE3

variable {α : Type}

def read (x : Nat → α) : SE3 α := ⟨⟨x 0, x 1, x 2, x 3⟩, ⟨x 4, x 5, x 6⟩⟩

def params (a : SE3 α) : List α := a.rotation.params ++ a.translation.coordinates

end SE3

namespace Twist3

variable {α : Type}

def read (x : Nat → α) : Twist3 α := ⟨⟨x 0, x 1, x 2⟩, ⟨x 3, x 4, x 5⟩⟩

def coordinates (v : Twist3 α) : List α := v.linear.coordinates ++ v.angular.coordinates

end Twist3

variable {α : Type} [Scalar α]

namespace Vec3

def add (p q : Vec3 α) : Vec3 α := ⟨p.x + q.x, p.y + q.y, p.z + q.z⟩

def sub (p q : Vec3 α) : Vec3 α := ⟨p.x - q.x, p.y - q.y, p.z - q.z⟩

def neg (p : Vec3 α) : Vec3 α := ⟨-p.x, -p.y, -p.z⟩

def scaled (c : α) (p : Vec3 α) : Vec3 α := ⟨c * p.x, c * p.y, c * p.z⟩

def dot (p q : Vec3 α) : α := p.x * q.x + p.y * q.y + p.z * q.z

def squaredNorm (p : Vec3 α) : α := p.dot p

end Vec3

namespace Mat3

def identity : Mat3 α :=
  let o : α := Scalar.zero
  let i : α := Scalar.one
  ⟨⟨i, o, o⟩, ⟨o, i, o⟩, ⟨o, o, i⟩⟩

/-- The matrix of the cross product with a vector. -/
def skew (p : Vec3 α) : Mat3 α :=
  let o : α := Scalar.zero
  ⟨⟨o, -p.z, p.y⟩, ⟨p.z, o, -p.x⟩, ⟨-p.y, p.x, o⟩⟩

def add (a b : Mat3 α) : Mat3 α := ⟨a.x.add b.x, a.y.add b.y, a.z.add b.z⟩

def sub (a b : Mat3 α) : Mat3 α := ⟨a.x.sub b.x, a.y.sub b.y, a.z.sub b.z⟩

def scaled (c : α) (a : Mat3 α) : Mat3 α := ⟨a.x.scaled c, a.y.scaled c, a.z.scaled c⟩

def transpose (a : Mat3 α) : Mat3 α :=
  ⟨⟨a.x.x, a.y.x, a.z.x⟩, ⟨a.x.y, a.y.y, a.z.y⟩, ⟨a.x.z, a.y.z, a.z.z⟩⟩

def mulVec (a : Mat3 α) (p : Vec3 α) : Vec3 α := ⟨a.x.dot p, a.y.dot p, a.z.dot p⟩

def mul (a b : Mat3 α) : Mat3 α :=
  let columns := b.transpose
  ⟨columns.mulVec a.x, columns.mulVec a.y, columns.mulVec a.z⟩

end Mat3

namespace SO3

def identity : SO3 α := ⟨Scalar.one, Scalar.zero, Scalar.zero, Scalar.zero⟩

def mul (a b : SO3 α) : SO3 α where
  w := a.w * b.w - a.x * b.x - a.y * b.y - a.z * b.z
  x := a.w * b.x + a.x * b.w + a.y * b.z - a.z * b.y
  y := a.w * b.y - a.x * b.z + a.y * b.w + a.z * b.x
  z := a.w * b.z + a.x * b.y - a.y * b.x + a.z * b.w

def inverse (q : SO3 α) : SO3 α := ⟨q.w, -q.x, -q.y, -q.z⟩

def apply (q : SO3 α) (p : Vec3 α) : Vec3 α :=
  let r := (q.mul ⟨Scalar.zero, p.x, p.y, p.z⟩).mul q.inverse
  ⟨r.x, r.y, r.z⟩

/-- The matrix that rotates as a quaternion does, whatever the norm of the quaternion. -/
def matrix (q : SO3 α) : Mat3 α :=
  let scale := Elementary.sqrt
    (Scalar.two / (q.w * q.w + q.x * q.x + q.y * q.y + q.z * q.z))
  let w := q.w * scale
  let x := q.x * scale
  let y := q.y * scale
  let z := q.z * scale
  let one : α := Scalar.one
  ⟨⟨one - y * y - z * z, x * y - z * w, x * z + y * w⟩,
    ⟨x * y + z * w, one - x * x - z * z, y * z - x * w⟩,
    ⟨x * z - y * w, y * z + x * w, one - x * x - y * y⟩⟩

/-- The rotation about an axis by an angle, the length of the vector. -/
def exp (t : Vec3 α) : SO3 α :=
  let n2 := t.squaredNorm
  let (w, scale) :=
    if Scalar.lt n2 Scalar.small then
      (Scalar.one - n2 / Scalar.ofInt 8 + n2 * n2 / Scalar.ofInt 384,
        Scalar.half - n2 / Scalar.ofInt 48 + n2 * n2 / Scalar.ofInt 3840)
    else
      let n := Elementary.sqrt n2
      let half := n / Scalar.two
      (Elementary.cos half, Elementary.sin half / n)
  ⟨w, scale * t.x, scale * t.y, scale * t.z⟩

/-- The vector along the axis of a rotation whose length is the angle. -/
def log (q : SO3 α) : Vec3 α :=
  let v : Vec3 α := ⟨q.x, q.y, q.z⟩
  let n2 := v.squaredNorm
  let scale :=
    if Scalar.lt n2 Scalar.small then
      Scalar.two / q.w - Scalar.two / Scalar.ofInt 3 * n2 / (q.w * q.w * q.w)
    else
      let n := Elementary.sqrt n2
      let size := if Scalar.lt q.w Scalar.zero then -q.w else q.w
      if Scalar.lt size Scalar.small then
        (if Scalar.lt Scalar.zero q.w then Scalar.one else -Scalar.one) * Elementary.pi / n
      else
        let signed := if Scalar.lt q.w Scalar.zero then -n else n
        Scalar.two * Elementary.atan2 signed size / n
  v.scaled scale

end SO3

namespace SE3

def identity : SE3 α := ⟨SO3.identity, ⟨Scalar.zero, Scalar.zero, Scalar.zero⟩⟩

def mul (a b : SE3 α) : SE3 α :=
  ⟨a.rotation.mul b.rotation, (a.rotation.apply b.translation).add a.translation⟩

def inverse (a : SE3 α) : SE3 α :=
  let back := a.rotation.inverse
  ⟨back, (back.apply a.translation).neg⟩

def apply (a : SE3 α) (p : Vec3 α) : Vec3 α := (a.rotation.apply p).add a.translation

/-- The matrix that turns a linear velocity into the translation after unit time, for the
rotation reached with an angular velocity. -/
def expMatrix (angular : Vec3 α) (rotation : SO3 α) : Mat3 α :=
  let angle2 := angular.squaredNorm
  if Scalar.lt angle2 Scalar.small then rotation.matrix
  else
    let angle := Elementary.sqrt angle2
    let once := Mat3.skew angular
    (Mat3.identity.add (once.scaled ((Scalar.one - Elementary.cos angle) / angle2))).add
      ((once.mul once).scaled ((angle - Elementary.sin angle) / (angle2 * angle)))

/-- The motion reached by moving with a twist for unit time. -/
def exp (t : Twist3 α) : SE3 α :=
  let rotation := SO3.exp t.angular
  ⟨rotation, (expMatrix t.angular rotation).mulVec t.linear⟩

/-- The matrix that turns a translation into the linear velocity, for an angular velocity. -/
def logMatrix (angular : Vec3 α) : Mat3 α :=
  let angle2 := angular.squaredNorm
  let once := Mat3.skew angular
  let scale :=
    if Scalar.lt angle2 Scalar.small then Scalar.one / Scalar.ofInt 12
    else
      let angle := Elementary.sqrt angle2
      let half := angle / Scalar.two
      (Scalar.one - angle * Elementary.cos half / (Scalar.two * Elementary.sin half)) / angle2
  (Mat3.identity.sub (once.scaled Scalar.half)).add ((once.mul once).scaled scale)

def log (a : SE3 α) : Twist3 α :=
  let angular := a.rotation.log
  ⟨(logMatrix angular).mulVec a.translation, angular⟩

end SE3

end LeastSquares
