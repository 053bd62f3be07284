import Tiered.Decimal.Hundredths

/-!
The numbers that drawings are measured in. The layout is written once over this interface, so that
the arithmetic it runs on and the arithmetic it is reasoned about are two instances of one program.
-/
namespace Tiered

/-- Arithmetic, order, and the few irrational functions that geometry needs. `max` and `min` pass
over an undefined operand, and comparisons with one are false. -/
class Scalar (K : Type) extends
    Add K, Sub K, Mul K, Div K, Neg K, NatCast K, LT K, LE K, BEq K, Max K, Min K where
  decLT : DecidableLT K
  decLE : DecidableLE K
  abs : K → K
  sqrt : K → K
  /-- The length of the vector with these components. -/
  hypot : K → K → K
  /-- The angle of the vector `(dx, dy)` against the first axis, in degrees: `heading dy dx`. -/
  heading : K → K → K
  finite : K → Bool
  /-- The least and the greatest of a single measurement. -/
  least : K → K
  greatest : K → K
  /-- `digits * 10 ^ exponent`, negated if asked. -/
  ofDecimal : Bool → Nat → Int → K
  /-- Rounds to hundredths, a half away from zero. -/
  hundredths : K → Hundredths

-- Numbers that come with operations of their own keep them.
attribute [instance (low)] Scalar.toAdd Scalar.toSub Scalar.toMul Scalar.toDiv
  Scalar.toNeg Scalar.toNatCast Scalar.toLT Scalar.toLE Scalar.toBEq Scalar.toMax Scalar.toMin

namespace Scalar

variable {K : Type} [Scalar K]

instance (priority := low) : DecidableLT K := decLT
instance (priority := low) : DecidableLE K := decLE
instance (priority := low) (n : Nat) : OfNat K n := ⟨(n : K)⟩
instance (priority := low) : Inhabited K := ⟨0⟩

/-- Lengths are finite and not negative. -/
def isLength (x : K) : Bool := finite x && decide (0 ≤ x)

/-- How a coordinate is written. -/
def text (x : K) : String := (hundredths x).text

end Scalar
end Tiered
