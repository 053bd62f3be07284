import Tiered.Proofs.Exact
import Tiered.Geometry

/-!
# Arithmetic that notices what is undefined

A field divides by zero as by any other number. The layout runs on numbers for which such a quotient
is undefined, and so is everything computed from it. `Checked K` are the numbers of a field with one
more for all that is undefined. The lemmas say when the result of each operation is defined.
-/

namespace Tiered

/-- A number, or the result of an operation that has none. -/
inductive Checked (K : Type) where
  | defined (x : K)
  | undefined
  deriving Repr

namespace Checked

variable {K : Type}

def map (f : K → K) : Checked K → Checked K
  | defined x => defined (f x)
  | undefined => undefined

/-- An operation that needs both its operands. -/
def both (f : K → K → K) : Checked K → Checked K → Checked K
  | defined x, defined y => defined (f x y)
  | _, _ => undefined

/-- An operation that passes over an undefined operand. -/
def either (f : K → K → K) : Checked K → Checked K → Checked K
  | defined x, defined y => defined (f x y)
  | defined x, undefined => defined x
  | undefined, y => y

/-- A comparison, which fails with anything undefined. -/
def Compares (r : K → K → Prop) : Checked K → Checked K → Prop
  | defined x, defined y => r x y
  | _, _ => False

instance (r : K → K → Prop) [DecidableRel r] : DecidableRel (Compares r)
  | defined x, defined y => inferInstanceAs (Decidable (r x y))
  | defined _, undefined | undefined, _ => inferInstanceAs (Decidable False)

def IsDefined (x : Checked K) : Prop := x ≠ undefined

instance : DecidablePred (IsDefined (K := K))
  | defined _ => .isTrue nofun
  | undefined => .isFalse fun h => h rfl

theorem IsDefined.exists_eq {x : Checked K} (h : x.IsDefined) : ∃ a, x = defined a := by
  cases x with
  | defined a => exact ⟨a, rfl⟩
  | undefined => exact absurd rfl h

variable [Field K] [LinearOrder K] [FloorRing K] [PlaneFunctions K]

instance : Scalar (Checked K) where
  add := both (· + ·)
  sub := both (· - ·)
  mul := both (· * ·)
  div
    | defined x, defined y => if y = 0 then undefined else defined (x / y)
    | _, _ => undefined
  neg := map (- ·)
  natCast n := defined n
  lt := Compares (· < ·)
  le := Compares (· ≤ ·)
  beq x y := decide (Compares (· = ·) x y)
  max := either max
  min := either min
  decLT := inferInstanceAs (DecidableRel (Compares (· < ·)))
  decLE := inferInstanceAs (DecidableRel (Compares (· ≤ ·)))
  abs := map Scalar.abs
  sqrt
    | defined x => if x < 0 then undefined else defined (Scalar.sqrt x)
    | undefined => undefined
  hypot := both Scalar.hypot
  heading := both Scalar.heading
  finite
    | defined _ => true
    | undefined => false
  least x := x
  greatest x := x
  ofDecimal negative digits exponent := defined (Scalar.ofDecimal negative digits exponent)
  hundredths
    | defined x => Scalar.hundredths x
    | undefined => .undefined

/-! ## Operations on what is defined -/

section Values

variable (x y : K)

omit [Field K] [LinearOrder K] [FloorRing K] [PlaneFunctions K] in
@[simp] theorem isDefined_defined : (defined x).IsDefined := nofun

@[simp] theorem defined_add : defined x + defined y = defined (x + y) := rfl

@[simp] theorem defined_sub : defined x - defined y = defined (x - y) := rfl

@[simp] theorem defined_mul : defined x * defined y = defined (x * y) := rfl

@[simp] theorem abs_defined : Scalar.abs (defined x) = defined |x| := rfl

@[simp] theorem defined_lt : defined x < defined y ↔ x < y := Iff.rfl

@[simp] theorem defined_le : defined x ≤ defined y ↔ x ≤ y := Iff.rfl

@[simp] theorem defined_min : min (defined x) (defined y) = defined (min x y) := rfl

@[simp] theorem defined_beq : (defined x == defined y) = decide (x = y) := rfl

variable {x} in
theorem sqrt_defined (hx : 0 ≤ x) : Scalar.sqrt (defined x) = defined (PlaneFunctions.sqrt x) :=
  if_neg (not_lt.mpr hx)

theorem zero_eq : (0 : Checked K) = defined 0 := congrArg defined Nat.cast_zero

theorem one_eq : (1 : Checked K) = defined 1 := congrArg defined Nat.cast_one

variable {y}

theorem defined_div (hy : y ≠ 0) : defined x / defined y = defined (x / y) := if_neg hy

theorem defined_div_zero : defined x / defined (0 : K) = undefined := if_pos rfl

end Values

/-! ## When a result is defined -/

section Results

variable {x y : Checked K}

@[simp] theorem isDefined_natCast (n : ℕ) : (n : Checked K).IsDefined := nofun

theorem isDefined_ofNat (n : ℕ) :
    (@OfNat.ofNat (Checked K) n (Scalar.instOfNat n)).IsDefined := nofun

@[simp] theorem isDefined_add : (x + y).IsDefined ↔ x.IsDefined ∧ y.IsDefined := by
  cases x <;> cases y <;> simp [IsDefined, HAdd.hAdd, Add.add, both]

@[simp] theorem isDefined_sub : (x - y).IsDefined ↔ x.IsDefined ∧ y.IsDefined := by
  cases x <;> cases y <;> simp [IsDefined, HSub.hSub, Sub.sub, both]

@[simp] theorem isDefined_mul : (x * y).IsDefined ↔ x.IsDefined ∧ y.IsDefined := by
  cases x <;> cases y <;> simp [IsDefined, HMul.hMul, Mul.mul, both]

@[simp] theorem isDefined_neg : (-x).IsDefined ↔ x.IsDefined := by
  cases x <;> simp [IsDefined, Neg.neg, map]

@[simp] theorem isDefined_hypot : (Scalar.hypot x y).IsDefined ↔ x.IsDefined ∧ y.IsDefined := by
  cases x <;> cases y <;> simp [IsDefined, Scalar.hypot, both]

@[simp] theorem isDefined_heading :
    (Scalar.heading x y).IsDefined ↔ x.IsDefined ∧ y.IsDefined := by
  cases x <;> cases y <;> simp [IsDefined, Scalar.heading, both]

@[simp] theorem isDefined_max : (max x y).IsDefined ↔ x.IsDefined ∨ y.IsDefined := by
  cases x <;> cases y <;> simp [IsDefined, max, either]

@[simp] theorem isDefined_min : (min x y).IsDefined ↔ x.IsDefined ∨ y.IsDefined := by
  cases x <;> cases y <;> simp [IsDefined, min, either]

/-- A quotient is defined unless its divisor is zero. -/
theorem isDefined_div : (x / y).IsDefined ↔ x.IsDefined ∧ y.IsDefined ∧ y ≠ 0 := by
  rw [zero_eq]
  cases x <;> cases y <;> simp [IsDefined, HDiv.hDiv, Div.div]

/-! What is undefined cannot be cancelled. -/

theorem add_swap (x y z : Checked K) : x + y + z = x + z + y := by
  cases x with
  | undefined => rfl
  | defined a =>
    cases y with
    | undefined => cases z <;> rfl
    | defined b =>
      cases z with
      | undefined => rfl
      | defined c => exact congrArg defined (add_right_comm a b c)

theorem add_sub_add_cancel (x z : Checked K) (hy : y.IsDefined) : x + y - (z + y) = x - z := by
  obtain ⟨b, rfl⟩ := hy.exists_eq
  cases x with
  | undefined => rfl
  | defined a =>
    cases z with
    | undefined => rfl
    | defined c => exact congrArg defined (add_sub_add_right_eq_sub a c b)

theorem sub_add_self (x : Checked K) (hy : y.IsDefined) : x - y + y = x := by
  obtain ⟨b, rfl⟩ := hy.exists_eq
  cases x with
  | undefined => rfl
  | defined a => exact congrArg defined (sub_add_cancel a b)

end Results

/-! ## Divisors that are not zero -/

section Divisors

variable {x y : Checked K}

theorem isLength_defined {a : K} : Scalar.isLength (defined a) = true ↔ 0 ≤ a := by
  simp only [Scalar.isLength, Scalar.finite, Bool.true_and, decide_eq_true_eq, zero_eq, defined_le]

theorem exists_of_isLength (h : Scalar.isLength x = true) : ∃ a : K, x = defined a ∧ 0 ≤ a := by
  cases x with
  | defined a => exact ⟨a, rfl, isLength_defined.mp h⟩
  | undefined => cases h

theorem IsDefined.of_isLength (h : Scalar.isLength x = true) : x.IsDefined := by
  obtain ⟨a, rfl, -⟩ := exists_of_isLength h
  exact isDefined_defined a

/-- Only numbers are greater than zero. -/
theorem exists_of_pos (h : 0 < x) : ∃ a : K, x = defined a ∧ 0 < a := by
  rw [zero_eq] at h
  cases x with
  | defined a => exact ⟨a, rfl, h⟩
  | undefined => exact h.elim

theorem IsDefined.of_pos (h : 0 < x) : x.IsDefined := by
  obtain ⟨a, rfl, -⟩ := exists_of_pos h
  exact isDefined_defined a

theorem IsDefined.div_of_pos (hx : x.IsDefined) (hy : 0 < y) : (x / y).IsDefined := by
  refine isDefined_div.mpr ⟨hx, .of_pos hy, ?_⟩
  obtain ⟨a, rfl, ha⟩ := exists_of_pos hy
  rw [zero_eq]
  exact fun h => ha.ne' (defined.inj h)

theorem defined_div_two (a : K) : defined a / 2 = defined (half a) :=
  defined_div a (Nat.cast_ne_zero.mpr two_ne_zero)

theorem isDefined_div_natCast {n : ℕ} (hn : n ≠ 0) :
    (x / (n : Checked K)).IsDefined ↔ x.IsDefined := by
  constructor
  · exact fun h => (isDefined_div.mp h).1
  · intro h
    obtain ⟨a, rfl⟩ := h.exists_eq
    have hquotient : defined a / (n : Checked K) = defined (a / n) :=
      defined_div a (Nat.cast_ne_zero.mpr hn)
    rw [hquotient]
    exact isDefined_defined _

@[simp] theorem isDefined_half : (x / 2).IsDefined ↔ x.IsDefined :=
  isDefined_div_natCast two_ne_zero

@[simp] theorem isDefined_quarter : (x / 4).IsDefined ↔ x.IsDefined :=
  isDefined_div_natCast four_ne_zero

variable [IsStrictOrderedRing K]

theorem pos_add (hx : 0 < x) (hy : 0 < y) : 0 < x + y := by
  obtain ⟨a, rfl, ha⟩ := exists_of_pos hx
  obtain ⟨b, rfl, hb⟩ := exists_of_pos hy
  rw [zero_eq]
  exact add_pos ha hb

theorem pos_div (hx : 0 < x) (hy : 0 < y) : 0 < x / y := by
  obtain ⟨a, rfl, ha⟩ := exists_of_pos hx
  obtain ⟨b, rfl, hb⟩ := exists_of_pos hy
  rw [zero_eq, defined_div _ hb.ne']
  exact div_pos ha hb

theorem pos_ofNat {n : ℕ} (hn : 0 < n) : 0 < @OfNat.ofNat (Checked K) n (Scalar.instOfNat n) := by
  rw [zero_eq]
  exact Nat.cast_pos.mpr hn

end Divisors

end Checked

/-! ## The plane -/

section Plane

variable {K : Type}

def Point.IsDefined (p : Point (Checked K)) : Prop := p.x.IsDefined ∧ p.y.IsDefined

def Point.checked (p : Point K) : Point (Checked K) := ⟨.defined p.x, .defined p.y⟩

theorem Point.isDefined_checked (p : Point K) : p.checked.IsDefined := ⟨nofun, nofun⟩

theorem Point.IsDefined.exists_eq {p : Point (Checked K)} (h : p.IsDefined) :
    ∃ q : Point K, p = q.checked := by
  obtain ⟨x, hx⟩ := h.1.exists_eq
  obtain ⟨y, hy⟩ := h.2.exists_eq
  exact ⟨⟨x, y⟩, congrArg₂ Point.mk hx hy⟩

structure Rect.IsDefined (r : Rect (Checked K)) : Prop where
  x : r.x.IsDefined
  y : r.y.IsDefined
  width : r.width.IsDefined
  height : r.height.IsDefined

def Rect.checked (r : Rect K) : Rect (Checked K) :=
  ⟨.defined r.x, .defined r.y, .defined r.width, .defined r.height⟩

theorem Rect.IsDefined.exists_eq {r : Rect (Checked K)} (h : r.IsDefined) :
    ∃ s : Rect K, r = s.checked := by
  obtain ⟨x, hx⟩ := h.x.exists_eq
  obtain ⟨y, hy⟩ := h.y.exists_eq
  obtain ⟨width, hwidth⟩ := h.width.exists_eq
  obtain ⟨height, hheight⟩ := h.height.exists_eq
  refine ⟨⟨x, y, width, height⟩, ?_⟩
  rw [Rect.checked, ← hx, ← hy, ← hwidth, ← hheight]

theorem Rect.isDefined_checked (r : Rect K) : r.checked.IsDefined := ⟨nofun, nofun, nofun, nofun⟩

structure Box.IsDefined (b : Box (Checked K)) : Prop where
  minX : b.minX.IsDefined
  minY : b.minY.IsDefined
  maxX : b.maxX.IsDefined
  maxY : b.maxY.IsDefined

@[simp] theorem Point.x_checked (p : Point K) : p.checked.x = .defined p.x := rfl

@[simp] theorem Point.y_checked (p : Point K) : p.checked.y = .defined p.y := rfl

@[simp] theorem Rect.width_checked (r : Rect K) : r.checked.width = .defined r.width := rfl

@[simp] theorem Rect.height_checked (r : Rect K) : r.checked.height = .defined r.height := rfl

variable [Field K] [LinearOrder K] [FloorRing K] [PlaneFunctions K]

@[simp] theorem Rect.center_checked (r : Rect K) : r.checked.center = r.center.checked := by
  simp only [center, checked, Point.checked, Checked.defined_div_two, Checked.defined_add,
    Scalar.div_two]

@[simp] theorem Point.isDefined_origin : (origin : Point (Checked K)).IsDefined := ⟨nofun, nofun⟩

theorem Point.isDefined_shift {p : Point (Checked K)} {dx dy : Checked K} (hdx : dx.IsDefined)
    (hdy : dy.IsDefined) : (p.shift dx dy).IsDefined ↔ p.IsDefined := by
  simp [IsDefined, shift, hdx, hdy]

theorem Point.IsDefined.distance {p q : Point (Checked K)} (hp : p.IsDefined) (hq : q.IsDefined) :
    (p.distance q).IsDefined := by
  simp [Point.distance, hp.1, hp.2, hq.1, hq.2]

namespace Rect

theorem isDefined_centered {c : Point (Checked K)} {w h : Checked K} (hc : c.IsDefined)
    (hw : w.IsDefined) (hh : h.IsDefined) : (centered c w h).IsDefined := by
  constructor
  · simp [centered, hc.1, hw]
  · simp [centered, hc.2, hh]
  · exact hw
  · exact hh

variable {r : Rect (Checked K)}

theorem isDefined_shift {dx dy : Checked K} (hdx : dx.IsDefined) (hdy : dy.IsDefined) :
    (r.shift dx dy).IsDefined ↔ r.IsDefined := by
  constructor
  · rintro ⟨hx, hy, hwidth, hheight⟩
    exact ⟨(Checked.isDefined_add.mp hx).1, (Checked.isDefined_add.mp hy).1, hwidth, hheight⟩
  · rintro ⟨hx, hy, hwidth, hheight⟩
    exact ⟨Checked.isDefined_add.mpr ⟨hx, hdx⟩, Checked.isDefined_add.mpr ⟨hy, hdy⟩, hwidth,
      hheight⟩

theorem IsDefined.center (h : r.IsDefined) : r.center.IsDefined := by
  simp [Rect.center, Point.IsDefined, h.x, h.y, h.width, h.height]

theorem shift_center (r : Rect (Checked K)) (dx dy : Checked K) :
    (r.shift dx dy).center = r.center.shift dx dy :=
  congrArg₂ Point.mk (Checked.add_swap _ _ _) (Checked.add_swap _ _ _)

theorem IsDefined.right (h : r.IsDefined) : r.right.IsDefined :=
  Checked.isDefined_add.mpr ⟨h.x, h.width⟩

theorem IsDefined.bottom (h : r.IsDefined) : r.bottom.IsDefined :=
  Checked.isDefined_add.mpr ⟨h.y, h.height⟩

end Rect

namespace Box

/-- An undefined point leaves a box as it is. -/
theorem IsDefined.cover {b : Box (Checked K)} (h : b.IsDefined) (p : Point (Checked K)) :
    (b.cover p).IsDefined := by
  constructor
  · exact Checked.isDefined_min.mpr (.inl h.minX)
  · exact Checked.isDefined_min.mpr (.inl h.minY)
  · exact Checked.isDefined_max.mpr (.inl h.maxX)
  · exact Checked.isDefined_max.mpr (.inl h.maxY)

/-- It is enough that the first point is defined. -/
theorem isDefined_around {p : Point (Checked K)} (hp : p.IsDefined)
    (rest : List (Point (Checked K))) : (around (p :: rest)).IsDefined := by
  apply List.foldlRecOn (motive := IsDefined)
  · exact ⟨hp.1, hp.2, hp.1, hp.2⟩
  · exact fun b hb q _ => hb.cover q

end Box
end Plane
end Tiered
