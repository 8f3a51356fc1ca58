/-!
# Shapes

The extents of an array, outermost first. Cells are numbered row by row.
-/

namespace LeastSquares

/-- The extents of an array along its axes. -/
abbrev Shape := List Nat

namespace Shape

def volume : Shape → Nat
  | [] => 1
  | d :: ds => d * volume ds

@[simp] theorem volume_nil : volume [] = 1 := rfl

@[simp] theorem volume_cons (d : Nat) (ds : Shape) : volume (d :: ds) = d * volume ds := rfl

theorem volume_append (s t : Shape) : volume (s ++ t) = volume s * volume t := by
  induction s with
  | nil => simp
  | cons d s ih => simp [ih, Nat.mul_assoc]

/-- The shape with axes of extent one put in front, up to `rank` axes. -/
def padded (rank : Nat) (s : Shape) : Shape := List.replicate (rank - s.length) 1 ++ s

/-- Two extents agree, or one of them is one and is repeated. -/
def joinExtent? (m n : Nat) : Option Nat :=
  if m = n then some m else if m = 1 then some n else if n = 1 then some m else none

/-- The shape to which two arrays can both be repeated; axes are matched from the last. -/
def join? (s t : Shape) : Option Shape :=
  let rank := max s.length t.length
  (List.zip (s.padded rank) (t.padded rank)).mapM fun (m, n) => joinExtent? m n

/-- The cell of an array of shape `small` that stands at cell `k` once the array is repeated
to the shape `big` of the same rank. -/
def project : Shape → Shape → Nat → Nat
  | _ :: big, d :: small, k =>
    (if d = 1 then 0 else k / volume big * volume small) + project big small (k % volume big)
  | _, _, _ => 0

end Shape

/-- The extent of runs laid one after another. -/
def totalExtent : List Nat → Nat
  | [] => 0
  | d :: ds => d + totalExtent ds

/-- Where each of the runs begins, the first of them at `start`. -/
def offsets : List Nat → Nat → List Nat
  | [], _ => []
  | d :: ds, start => start :: offsets ds (start + d)

/-- What an index outside an array does. -/
inductive Access where
  /-- It is refused. -/
  | checked
  /-- It is moved to the nearest place. -/
  | clamped
  deriving DecidableEq

/-- The place among `n` that a signed index names; a negative index counts once from the
end. -/
def Access.locate (access : Access) (n : Nat) (i : Int) : Option Nat :=
  let j := if i < 0 then i + n else i
  match access with
  | checked => if 0 ≤ j ∧ j < n then some j.toNat else none
  | clamped => if n = 0 then none else some (min j.toNat (n - 1))

theorem Access.locate_of_lt {access : Access} {n : Nat} {i : Nat} (h : i < n) :
    access.locate n i = some i := by
  cases access <;> simp [locate] <;> omega

/-- The place among `n` that a write to a signed index goes to; a write outside is lost. -/
def target (n : Nat) (i : Int) : Option Nat := Access.locate .checked n i

end LeastSquares
