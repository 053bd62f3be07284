import Mathlib.Algebra.Order.Field.Basic
import Mathlib.Algebra.Order.Floor.Ring
import Mathlib.Data.Rat.Floor
import Mathlib.Data.Rat.Sqrt
import Mathlib.Tactic.Linarith
import Mathlib.Tactic.Ring
import Tiered.Scalar

/-!
# Exact arithmetic

The layout runs over any `Scalar`. Here the numbers of a linearly ordered field are one: sums,
products and comparisons are those of the field, every number is finite, and rounding is exact.
Only the irrational functions are not given by the field, and nothing is assumed of them.
-/

namespace Tiered

/-- The functions of the plane that lead out of the rational numbers. -/
class PlaneFunctions (K : Type) where
  sqrt : K → K
  hypot : K → K → K
  heading : K → K → K

/-- Among rational numbers, for vectors along an axis and for squares. -/
instance PlaneFunctions.axial : PlaneFunctions ℚ where
  sqrt := Rat.sqrt
  hypot x y := |x| + |y|
  heading dy dx :=
    if dx < 0 then 180 else if 0 < dx then 0 else if dy < 0 then -90 else if 0 < dy then 90 else 0

/-- Half of a number. -/
def half {K : Type} [Field K] (x : K) : K := x / (2 : ℕ)

section Half

variable {K : Type} [Field K]

theorem half_add (x y : K) : half (x + y) = half x + half y := add_div _ _ _

variable [LinearOrder K] [IsStrictOrderedRing K]

theorem half_add_half (x : K) : half x + half x = x := by
  simp only [half, Nat.cast_ofNat]
  ring

theorem half_le_half {x y : K} (h : x ≤ y) : half x ≤ half y := by
  have hx := half_add_half x
  have hy := half_add_half y
  linarith

theorem half_nonneg {x : K} (h : 0 ≤ x) : 0 ≤ half x := by
  have hhalf := half_add_half x
  linarith

theorem half_pos {x : K} (h : 0 < x) : 0 < half x := by
  have hhalf := half_add_half x
  linarith

theorem half_min (x y : K) : half (min x y) = min (half x) (half y) :=
  (min_div_div_right (Nat.cast_nonneg 2) x y).symm

end Half

namespace Scalar

variable {K : Type} [Field K] [LinearOrder K] [FloorRing K] [PlaneFunctions K]

instance (priority := low) exact : Scalar K where
  beq x y := decide (x = y)
  decLT := inferInstance
  decLE := inferInstance
  abs x := |x|
  sqrt := PlaneFunctions.sqrt
  hypot := PlaneFunctions.hypot
  heading := PlaneFunctions.heading
  finite _ := true
  least x := x
  greatest x := x
  ofDecimal negative digits exponent :=
    let size : K := digits * 10 ^ exponent
    if negative then -size else size
  hundredths x := .count (if 0 ≤ x then ⌊x * 100 + 1 / 2⌋ else -⌊-x * 100 + 1 / 2⌋)

/-- The literal zero of the layout is the zero of the field. -/
theorem zero_eq : @OfNat.ofNat K 0 (Scalar.instOfNat 0) = 0 := Nat.cast_zero

theorem one_eq : @OfNat.ofNat K 1 (Scalar.instOfNat 1) = 1 := Nat.cast_one

/-- The layout halves as the field does. -/
theorem div_two (x : K) : x / @OfNat.ofNat K 2 (Scalar.instOfNat 2) = half x := rfl

theorem two_mul_eq (x : K) : @OfNat.ofNat K 2 (Scalar.instOfNat 2) * x = x + x := by
  change ((2 : ℕ) : K) * x = x + x
  rw [Nat.cast_two, two_mul]

theorem isLength_iff {x : K} : isLength x = true ↔ 0 ≤ x := by
  simp only [isLength, finite, Bool.true_and, decide_eq_true_eq]
  rw [zero_eq]

end Scalar
end Tiered
