/-!
# Decimal text of machine numbers

A finite double is the exact fraction `m * 2 ^ q`. It is written with a fixed number of
places, or with one digit before the point and an exponent, by rounding that fraction in
whole numbers; a tie goes to the even neighbour.
-/

namespace LeastSquares.Decimal

/-- `num / den` rounded to the nearest whole number; a tie goes to the even neighbour. -/
def roundDiv (num den : Nat) : Nat :=
  let below := num / den
  let rest := 2 * (num % den)
  if rest < den ∨ (rest = den ∧ below % 2 = 0) then below else below + 1

/-- A number of absolute value `num / den`. -/
structure Fraction where
  negative : Bool
  num : Nat
  den : Nat

/-- The exact value of a finite double. -/
def Fraction.ofFloat (x : Float) : Fraction :=
  let bits := x.toBits.toNat
  let negative := bits >>> 63 = 1
  let exponent := (bits >>> 52) % 0x800
  let digits := bits % 0x10000000000000
  let mantissa := if exponent = 0 then digits else digits + 0x10000000000000
  let shift := max exponent 1
  if 1075 ≤ shift then ⟨negative, mantissa <<< (shift - 1075), 1⟩
  else ⟨negative, mantissa, 1 <<< (1075 - shift)⟩

def signText (negative : Bool) : String := if negative then "-" else ""

/-- The digits of `n`, with a point before the last `places` of them. -/
def pointed (n places : Nat) : String :=
  let digits := (toString n).toList
  let digits := List.replicate (places + 1 - digits.length) '0' ++ digits
  let whole := digits.take (digits.length - places)
  if places = 0 then String.ofList whole
  else String.ofList (whole ++ '.' :: digits.drop (digits.length - places))

/-- The value with `places` digits after the point. -/
def Fraction.fixed (f : Fraction) (places : Nat) : String :=
  signText f.negative ++ pointed (roundDiv (f.num * Nat.pow 10 places) f.den) places

/-- The least `k` below the bound with `den ≤ num * 10 ^ k`. -/
def leadingZeros (num den : Nat) : Nat → Nat
  | 0 => 0
  | bound + 1 => if den ≤ num then 0 else leadingZeros (num * 10) den bound + 1

/-- The exponent of the leading decimal digit of a positive fraction. -/
def Fraction.magnitude (f : Fraction) : Int :=
  if f.den ≤ f.num then (toString (f.num / f.den)).length - 1
  else -(leadingZeros f.num f.den 400 : Int)

/-- `places + 1` significant digits and the exponent of the first of them. -/
def Fraction.significant (f : Fraction) (places : Nat) : Nat × Int :=
  if f.num = 0 then (0, 0) else
    let e := f.magnitude
    let scale := (places : Int) - e
    let n :=
      if 0 ≤ scale then roundDiv (f.num * Nat.pow 10 scale.toNat) f.den
      else roundDiv f.num (f.den * Nat.pow 10 (-scale).toNat)
    if n = Nat.pow 10 (places + 1) then (Nat.pow 10 places, e + 1) else (n, e)

/-- An exponent with its sign and at least two digits. -/
def exponentText (e : Int) : String :=
  let digits := toString e.natAbs
  "e" ++ (if e < 0 then "-" else "+") ++ (if digits.length < 2 then "0" ++ digits else digits)

/-- The value with one digit before the point, `places` after it, and an exponent. -/
def Fraction.scientific (f : Fraction) (places : Nat) : String :=
  let (n, e) := f.significant places
  signText f.negative ++ pointed n places ++ exponentText e

/-- Zeros at the end of a decimal fraction, and the point if nothing follows it, are left
out. -/
def trimmed (text : String) : String :=
  if text.contains '.' then
    let rest := (text.toList.reverse.dropWhile (· == '0'))
    String.ofList (if rest.head? = some '.' then rest.tail else rest).reverse
  else text

/-- The value with `digits` significant digits: with an exponent if the first of them stands
left of the range that so many digits reach, or more than four places after the point. -/
def Fraction.general (f : Fraction) (digits : Nat) : String :=
  let (n, e) := f.significant (digits - 1)
  if -4 ≤ e ∧ e < digits then
    trimmed (f.fixed ((digits : Int) - 1 - e).toNat)
  else
    signText f.negative ++ trimmed (pointed n (digits - 1)) ++ exponentText e

/-- The ways to write a number. -/
inductive Layout where
  /-- So many places after the point. -/
  | fixed (places : Nat)
  /-- One digit before the point, so many places after it, and an exponent. -/
  | scientific (places : Nat)
  /-- So many significant digits. -/
  | general (digits : Nat)

def format (layout : Layout) (x : Float) : String :=
  if x.isNaN then "nan"
  else if x.isInf then (if x < 0 then "-inf" else "inf")
  else
    let f := Fraction.ofFloat x
    match layout with
    | .fixed places => f.fixed places
    | .scientific places => f.scientific places
    | .general digits => f.general digits

end LeastSquares.Decimal
