import Tiered.Proofs.Checked
import Tiered.Proofs.Layout.Outlines

/-!
# Where clipping is defined

* `Outline.Lengthwise`: a point straight above or below the centre of a box that has no width;
* `clip_lengthwise`: towards it clipping divides by zero;
* `encloses_clip`: towards any other point clipping is defined, and stays within the rectangle,
  whatever the shape is and whichever of its extents are zero.
-/

namespace Tiered

/-- The point is inside the rectangle or on its sides. -/
def Rect.Encloses {L : Type} [Scalar L] (r : Rect L) (p : Point L) : Prop :=
  r.x ≤ p.x ∧ p.x ≤ r.right ∧ r.y ≤ p.y ∧ p.y ≤ r.bottom

/-- The outline is a box without width, and the point is straight above or below its centre. -/
structure Layout.Outline.Lengthwise {L : Type} [Scalar L] (o : Layout.Outline L) (p : Point L) :
    Prop where
  box : o.shape = .box ∨ o.shape = .plain
  width : o.rect.width = 0
  inLine : p.x = o.rect.center.x
  apart : p.y ≠ o.rect.center.y

namespace Layout

open Checked

variable {K : Type} [Field K] [LinearOrder K] [FloorRing K] [PlaneFunctions K]
  [IsStrictOrderedRing K]

/-! ## Vectors that are clipped -/

section Vectors

variable {hw hh dx dy : K}

/-- A vector is clipped at the sides it points to, unless it is divided by zero. -/
theorem exists_leaveRect_eq (hhw : 0 ≤ hw) (hhh : 0 ≤ hh) (hne : dx ≠ 0 ∨ dy ≠ 0 ∧ hw ≠ 0) :
    ∃ sx sy, leaveRect (defined hw) (defined hh) (defined dx) (defined dy) =
      (defined sx, defined sy) ∧ |sx| ≤ hw ∧ |sy| ≤ hh := by
  have hside : ∀ {e d : K}, (if defined d < 0 then -defined e else defined e) =
      defined (if d < 0 then -e else e) := by
    intro e d
    simp only [zero_eq, defined_lt]
    split <;> rfl
  have hsign : ∀ {e d : K}, 0 ≤ e → |if d < 0 then -e else e| = e := by
    intro e d he
    split
    · rw [abs_neg, abs_of_nonneg he]
    · exact abs_of_nonneg he
  simp only [leaveRect, hside, abs_defined, defined_mul, defined_lt]
  split
  · rename_i hsteep
    have hdy : 0 < |dy| := by
      have hlow := mul_nonneg (abs_nonneg dx) hhh
      exact pos_of_mul_pos_left (lt_of_le_of_lt hlow hsteep) hhw
    refine ⟨_, _, by rw [defined_div _ (abs_pos.mp hdy)], ?_, (hsign hhh).le⟩
    rw [abs_div, abs_mul, hsign hhh, div_le_iff₀ hdy, mul_comm hh, mul_comm hw]
    exact hsteep.le
  · rename_i hflat
    have hdx : 0 < |dx| := by
      refine abs_pos.mpr fun hzero => ?_
      obtain ⟨hdy, hw⟩ := hne.resolve_left fun h => h hzero
      rw [hzero, abs_zero, zero_mul] at hflat
      exact hflat (mul_pos (abs_pos.mpr hdy) (lt_of_le_of_ne hhw hw.symm))
    refine ⟨_, _, by rw [defined_div _ (abs_pos.mp hdx)], (hsign hhw).le, ?_⟩
    rw [abs_div, abs_mul, hsign hhw, div_le_iff₀ hdx, mul_comm hw, mul_comm hh]
    exact not_lt.mp hflat

theorem leaveRect_zero (hh dy : K) :
    (leaveRect (defined 0) (defined hh) (defined 0) (defined dy)).2 = undefined := by
  simp only [leaveRect, abs_defined, defined_mul, defined_lt, abs_zero, zero_mul, mul_zero,
    lt_irrefl, if_false, zero_eq, defined_div_zero]

theorem exists_ellipse_eq (hroots : ExactRoots K) (hhw : 0 < hw) (hhh : 0 < hh)
    (hne : dx ≠ 0 ∨ dy ≠ 0) :
    ∃ t, 1 / Scalar.sqrt (defined dx / defined hw * (defined dx / defined hw) +
        defined dy / defined hh * (defined dy / defined hh)) = defined t ∧
      |t * dx| ≤ hw ∧ |t * dy| ≤ hh := by
  have hbounds := ellipse_bounds hhw hhh hne hroots rfl
  have hnonneg : 0 ≤ dx / hw * (dx / hw) + dy / hh * (dy / hh) :=
    add_nonneg (mul_self_nonneg _) (mul_self_nonneg _)
  have hroot : PlaneFunctions.sqrt (dx / hw * (dx / hw) + dy / hh * (dy / hh)) ≠ 0 := by
    intro hzero
    rw [hzero] at hbounds
    simp [Shape.Bounds] at hbounds
  refine ⟨_, ?_, hbounds.within hhw hhh⟩
  rw [defined_div _ hhw.ne', defined_div _ hhh.ne', defined_mul, defined_mul, defined_add,
    sqrt_defined hnonneg, one_eq, defined_div _ hroot]

theorem exists_diamond_eq (hhw : 0 < hw) (hhh : 0 < hh) (hne : dx ≠ 0 ∨ dy ≠ 0) :
    ∃ t, 1 / (Scalar.abs (defined dx) / defined hw + Scalar.abs (defined dy) / defined hh) =
        defined t ∧ |t * dx| ≤ hw ∧ |t * dy| ≤ hh := by
  have hbounds := diamond_bounds hhw hhh hne rfl
  have hlength : |dx| / hw + |dy| / hh ≠ 0 := by
    intro hzero
    rw [hzero] at hbounds
    simp [Shape.Bounds] at hbounds
  refine ⟨_, ?_, hbounds.within hhw hhh⟩
  rw [abs_defined, abs_defined, defined_div _ hhw.ne', defined_div _ hhh.ne', defined_add, one_eq,
    defined_div _ hlength]

end Vectors

/-! ## Points on outlines -/

section Outlines

variable {r : Rect K} {shape : Shape} {p : Point K}

omit [IsStrictOrderedRing K] in
theorem lengthwise_checked : (⟨r.checked, shape⟩ : Outline (Checked K)).Lengthwise p.checked ↔
    (shape = .box ∨ shape = .plain) ∧ r.width = 0 ∧ p.x = r.center.x ∧ p.y ≠ r.center.y := by
  have hdefined : ∀ {a b : K}, defined a = defined b ↔ a = b :=
    fun {a b} => ⟨fun h => defined.inj h, congrArg defined⟩
  constructor
  · rintro ⟨hbox, hwidth, hinLine, hapart⟩
    simp only [Rect.center_checked, zero_eq] at hwidth hinLine hapart
    exact ⟨hbox, hdefined.mp hwidth, hdefined.mp hinLine, fun h => hapart (hdefined.mpr h)⟩
  · rintro ⟨hbox, hwidth, hinLine, hapart⟩
    constructor
    · exact hbox
    · exact zero_eq (K := K) ▸ hdefined.mpr hwidth
    · exact r.center_checked ▸ hdefined.mpr hinLine
    · exact r.center_checked ▸ fun h => hapart (hdefined.mp h)

/-- A point that is no further from the centre than a clipped vector may be. -/
def Stays (r : Rect K) (p : Point (Checked K)) : Prop :=
  ∃ sx sy, p = (⟨r.center.x + sx, r.center.y + sy⟩ : Point K).checked ∧
    |sx| ≤ half r.width ∧ |sy| ≤ half r.height

theorem stays_center (hwidth : 0 ≤ r.width) (hheight : 0 ≤ r.height) :
    Stays r r.center.checked := by
  refine ⟨0, 0, ?_, ?_, ?_⟩
  · rw [add_zero, add_zero]
  · rw [abs_zero]
    exact half_nonneg hwidth
  · rw [abs_zero]
    exact half_nonneg hheight

theorem stays_clip (hroots : ExactRoots K) (hwidth : 0 ≤ r.width) (hheight : 0 ≤ r.height)
    (h : ¬(⟨r.checked, shape⟩ : Outline (Checked K)).Lengthwise p.checked) :
    Stays r (clip ⟨r.checked, shape⟩ p.checked) := by
  have hstay := stays_center hwidth hheight
  have hhw := half_nonneg hwidth
  have hhh := half_nonneg hheight
  have hzero : half r.width = 0 → r.width = 0 := by
    intro hhalf
    have := half_add_half r.width
    linarith
  rw [lengthwise_checked] at h
  simp only [clip, Rect.center_checked, Point.x_checked, Point.y_checked, Rect.width_checked,
    Rect.height_checked, defined_sub, zero_eq, defined_beq, defined_div_two, defined_min,
    ← Bool.decide_and, ← Bool.decide_or, decide_eq_true_eq]
  split
  · exact hstay
  rename_i haway
  have hne : p.x - r.center.x ≠ 0 ∨ p.y - r.center.y ≠ 0 := not_and_or.mp haway
  -- A shape without extent in one direction is left at its centre, unless it is a box.
  have hextent : ∀ {e : K}, 0 ≤ e → e ≠ 0 → 0 < e := fun he hne => lt_of_le_of_ne he hne.symm
  cases shape with
  | box | plain =>
    have hcut : p.x - r.center.x ≠ 0 ∨ p.y - r.center.y ≠ 0 ∧ half r.width ≠ 0 := by
      by_cases hx : p.x - r.center.x = 0
      · have hy := hne.resolve_left fun hx' => hx' hx
        refine .inr ⟨hy, fun hhalf => h ⟨by simp, hzero hhalf, sub_eq_zero.mp hx, ?_⟩⟩
        exact sub_ne_zero.mp hy
      · exact .inl hx
    obtain ⟨sx, sy, hleave, hsx, hsy⟩ := exists_leaveRect_eq hhw hhh hcut
    refine ⟨sx, sy, ?_, hsx, hsy⟩
    rw [hleave]
    rfl
  | ellipse =>
    dsimp only
    split
    · exact hstay
    rename_i hsize
    obtain ⟨hw, hh⟩ := not_or.mp hsize
    obtain ⟨t, ht, hx, hy⟩ := exists_ellipse_eq hroots (hextent hhw hw) (hextent hhh hh) hne
    refine ⟨_, _, ?_, hx, hy⟩
    rw [ht]
    rfl
  | circle =>
    dsimp only
    split
    · exact hstay
    rename_i hsize
    have hr := hextent (le_min hhw hhh) (not_or.mp hsize).1
    obtain ⟨t, ht, hx, hy⟩ := exists_ellipse_eq hroots hr hr hne
    refine ⟨_, _, ?_, hx.trans (min_le_left _ _), hy.trans (min_le_right _ _)⟩
    rw [ht]
    rfl
  | diamond =>
    dsimp only
    split
    · exact hstay
    rename_i hsize
    obtain ⟨hw, hh⟩ := not_or.mp hsize
    obtain ⟨t, ht, hx, hy⟩ := exists_diamond_eq (hextent hhw hw) (hextent hhh hh) hne
    refine ⟨_, _, ?_, hx, hy⟩
    rw [ht]
    rfl

theorem encloses_of_stays {p : Point (Checked K)} (h : Stays r p) : r.checked.Encloses p := by
  obtain ⟨sx, sy, rfl, hx, hy⟩ := h
  obtain ⟨hleft, hright⟩ := abs_le.mp hx
  obtain ⟨htop, hbottom⟩ := abs_le.mp hy
  have hfar : r.checked.right = defined r.right ∧ r.checked.bottom = defined r.bottom := ⟨rfl, rfl⟩
  have hnear : r.checked.x = defined r.x ∧ r.checked.y = defined r.y := ⟨rfl, rfl⟩
  have hcx := r.center_x
  have hcy := r.center_y
  simp only [Rect.Encloses, hfar, hnear, Point.x_checked, Point.y_checked, defined_le,
    Rect.right_eq, Rect.bottom_eq]
  refine ⟨?_, ?_, ?_, ?_⟩ <;> linarith

end Outlines

variable {o : Outline (Checked K)} {p : Point (Checked K)}

/-- Towards a point that is not lengthwise of a box, a segment leaves a node within its rectangle;
in particular nothing is divided by zero. -/
theorem encloses_clip (hroots : ExactRoots K) (ho : o.rect.IsDefined)
    (hwidth : Scalar.isLength o.rect.width = true)
    (hheight : Scalar.isLength o.rect.height = true) (hp : p.IsDefined) (h : ¬o.Lengthwise p) :
    (clip o p).IsDefined ∧ o.rect.Encloses (clip o p) := by
  obtain ⟨rect, shape⟩ := o
  obtain ⟨r, rfl⟩ := ho.exists_eq
  obtain ⟨q, rfl⟩ := hp.exists_eq
  obtain ⟨w, hw, hw0⟩ := exists_of_isLength hwidth
  obtain ⟨h', hh, hh0⟩ := exists_of_isLength hheight
  cases hw
  cases hh
  have hstays := stays_clip hroots hw0 hh0 h
  refine ⟨?_, encloses_of_stays hstays⟩
  obtain ⟨sx, sy, hclip, -⟩ := hstays
  rw [hclip]
  exact Point.isDefined_checked _

/-- Lengthwise of a box, zero is divided by zero. -/
theorem clip_lengthwise (ho : o.rect.IsDefined) (hp : p.IsDefined) (h : o.Lengthwise p) :
    (clip o p).y = undefined := by
  obtain ⟨rect, shape⟩ := o
  obtain ⟨r, rfl⟩ := ho.exists_eq
  obtain ⟨q, rfl⟩ := hp.exists_eq
  obtain ⟨hbox, hwidth, hinLine, hapart⟩ := lengthwise_checked.mp h
  have hx : q.x - r.center.x = 0 := sub_eq_zero.mpr hinLine
  have hy : q.y - r.center.y ≠ 0 := sub_ne_zero.mpr hapart
  have hhalf : half r.width = 0 := by rw [hwidth, half, zero_div]
  simp only [clip, Rect.center_checked, Point.x_checked, Point.y_checked, Rect.width_checked,
    Rect.height_checked, defined_sub, zero_eq, defined_beq, defined_div_two, ← Bool.decide_and,
    decide_eq_true_eq, hx, hhalf, hy, and_false, if_false]
  rcases hbox with rfl | rfl
  · dsimp only
    rw [leaveRect_zero]
    rfl
  · dsimp only
    rw [leaveRect_zero]
    rfl

/-- Clipping is defined exactly where the point is not lengthwise of a box. -/
theorem isDefined_clip_iff (hroots : ExactRoots K) (ho : o.rect.IsDefined)
    (hwidth : Scalar.isLength o.rect.width = true)
    (hheight : Scalar.isLength o.rect.height = true) (hp : p.IsDefined) :
    (clip o p).IsDefined ↔ ¬o.Lengthwise p := by
  constructor
  · intro hclip h
    exact hclip.2 (clip_lengthwise ho hp h)
  · intro h
    exact (encloses_clip hroots ho hwidth hheight hp h).1

end Layout
end Tiered
