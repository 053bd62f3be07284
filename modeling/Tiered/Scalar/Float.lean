import Tiered.Scalar

/-!
Drawings in double precision.
-/
namespace Tiered.Scalar.Double

/-- The bit that stands before the fraction of a normal number. -/
def hidden : Nat := 1 <<< 52

/-- The value is `significand * 2 ^ exponent`, for a finite number without its sign. -/
def significand (x : Float) : Nat :=
  let fraction := x.toBits.toNat % hidden
  if x.toBits.toNat / hidden % 2048 = 0 then fraction else fraction + hidden

def exponent (x : Float) : Int :=
  max (Int.ofNat (x.toBits.toNat / hidden % 2048)) 1 - 1075

/-- How often a hundredth fits into a finite number without its sign, rounded to nearest. -/
def hundredfold (x : Float) : Nat :=
  let m := significand x * 100
  match exponent x with
  | .ofNat e => m <<< e
  | .negSucc e => Hundredths.roundDiv m (1 <<< (e + 1))

def hundredths (x : Float) : Hundredths :=
  let r := (x * 100.0).round / 100.0
  if r.isNaN then .undefined
  else if r.isInf then .unbounded (r < 0.0)
  else if r < 0.0 then .count (-(hundredfold r : Int))
  else .count (hundredfold r)

/-- The length of a vector whose components are neither huge nor tiny, the larger one first. The
rounding error of the squares is taken out again. -/
def lengthNear (a b : Float) : Float :=
  let h := (a * a + b * b).sqrt
  let excess :=
    if h ≤ 2.0 * b then
      let d := h - b
      a * (2.0 * d - a) + (d - 2.0 * (a - b)) * d
    else
      let d := h - a
      2.0 * d * (a - 2.0 * b) + ((4.0 * d - b) * b + d * d)
  h - excess / (2.0 * h)

/-- The length of any vector. Components are scaled where their squares would leave the range. -/
def length (x y : Float) : Float :=
  if x.isInf || y.isInf then 1.0 / 0.0
  else if x.isNaN || y.isNaN then x + y
  else
    let a := if x.abs < y.abs then y.abs else x.abs
    let b := if x.abs < y.abs then x.abs else y.abs
    let scale := Float.scaleB 1.0 600
    if b ≤ a * Float.scaleB 1.0 (-54) then a + b
    else if a > Float.scaleB 1.0 511 then lengthNear (a / scale) (b / scale) * scale
    else if b < Float.scaleB 1.0 (-459) then lengthNear (a * scale) (b * scale) / scale
    else lengthNear a b

/-- The nearest double to a decimal. Exponents far outside the range give zero or no bound. -/
def ofDecimal (negative : Bool) (digits : Nat) (exponent : Int) : Float :=
  let size :=
    if digits = 0 then 0.0
    else if 400 < exponent then 1.0 / 0.0
    else if exponent + Nat.log2 digits < -800 then 0.0
    else Float.ofScientific digits (decide (exponent < 0)) exponent.natAbs
  if negative then -size else size

def larger (x y : Float) : Float :=
  if x.isNaN then y else if y.isNaN then x else if x < y then y else x

def smaller (x y : Float) : Float :=
  if x.isNaN then y else if y.isNaN then x else if y < x then y else x

end Double

instance : Scalar Float where
  natCast := Float.ofNat
  max := Double.larger
  min := Double.smaller
  decLT := Float.decLt
  decLE := Float.decLe
  abs := Float.abs
  sqrt := Float.sqrt
  hypot := Double.length
  heading dy dx := Float.atan2 dy dx * 57.29577951308232
  finite := Float.isFinite
  least x := Double.smaller (1.0 / 0.0) x
  greatest x := Double.larger (-1.0 / 0.0) x
  ofDecimal := Double.ofDecimal
  hundredths := Double.hundredths

end Tiered.Scalar
