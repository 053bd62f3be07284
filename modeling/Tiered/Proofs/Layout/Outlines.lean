import Mathlib.Tactic.FieldSimp
import Tiered.Drawing
import Tiered.Proofs.Exact

/-!
# Routes are clipped to what is drawn

* `Element.Traces`, `PlacedNode.OnOutline`: the points on the line that a node is drawn with;
* `Outline.PassesThrough`: the same, seen from the centre of the node (`onOutline`), and never
  outside its rectangle (`Shape.Bounds.within`);
* `passesThrough_clip`: towards any point but the centre, a segment is clipped to the outline.

The shapes that are drawn and those that routes are clipped to come from different functions;
`Shape.Bounds` is what they agree on.
-/

namespace Tiered

/-! ## Vectors to an outline -/

section Vectors

variable {K : Type} [Field K] [LinearOrder K]

/-- The vector `(x, y)` leads from the centre of a shape to its outline. The shape reaches `hw` and
`hh` to the sides. -/
def Shape.Bounds (shape : Shape) (hw hh x y : K) : Prop :=
  match shape with
  | .box | .plain => |x| = hw ∧ |y| ≤ hh ∨ |y| = hh ∧ |x| ≤ hw
  | .ellipse => x / hw * (x / hw) + y / hh * (y / hh) = 1
  | .circle => x / min hw hh * (x / min hw hh) + y / min hw hh * (y / min hw hh) = 1
  | .diamond => |x| / hw + |y| / hh = 1

variable [IsStrictOrderedRing K]

theorem abs_le_of_ellipse {rx ry x y : K} (hrx : 0 < rx)
    (h : x / rx * (x / rx) + y / ry * (y / ry) = 1) : |x| ≤ rx := by
  have hsquare : x / rx * (x / rx) ≤ 1 := by
    have := mul_self_nonneg (y / ry)
    linarith
  have hunit := abs_le_one_iff_mul_self_le_one.mpr hsquare
  rwa [abs_div, abs_of_pos hrx, div_le_one hrx] at hunit

theorem abs_le_of_diamond {hw hh x y : K} (hhw : 0 < hw) (hhh : 0 < hh)
    (h : |x| / hw + |y| / hh = 1) : |x| ≤ hw := by
  have hother := div_nonneg (abs_nonneg y) hhh.le
  have hunit : |x| / hw ≤ 1 := by linarith
  rwa [div_le_one hhw] at hunit

/-- Outlines stay within the rectangle. -/
theorem Shape.Bounds.within {shape : Shape} {hw hh x y : K} (h : shape.Bounds hw hh x y)
    (hhw : 0 < hw) (hhh : 0 < hh) : |x| ≤ hw ∧ |y| ≤ hh := by
  cases shape with
  | box | plain =>
    rcases h with ⟨hx, hy⟩ | ⟨hy, hx⟩
    · exact ⟨hx.le, hy⟩
    · exact ⟨hx, hy.le⟩
  | ellipse => exact ⟨abs_le_of_ellipse hhw h, abs_le_of_ellipse hhh ((add_comm _ _).trans h)⟩
  | circle =>
    have hr := lt_min hhw hhh
    exact ⟨(abs_le_of_ellipse hr h).trans (min_le_left _ _),
      (abs_le_of_ellipse hr ((add_comm _ _).trans h)).trans (min_le_right _ _)⟩
  | diamond =>
    exact ⟨abs_le_of_diamond hhw hhh h, abs_le_of_diamond hhh hhw ((add_comm _ _).trans h)⟩

end Vectors

/-! ## Lines that are drawn -/

section Lines

variable {K : Type} [Field K] [LinearOrder K]

/-- A point lies on the segment between two others. -/
def Point.Between (a b p : Point K) : Prop :=
  ∃ t : K, 0 ≤ t ∧ t ≤ 1 ∧ p = ⟨a.x + t * (b.x - a.x), a.y + t * (b.y - a.y)⟩

/-- The sides of a polygon, the last one back to its first corner. -/
def sides (corners : List (Point K)) : List (Point K × Point K) :=
  corners.zip (corners.tail ++ corners.take 1)

/-- A vector to a diamond ends on one of its four sides. -/
theorem between_of_diamond [IsStrictOrderedRing K] {hw hh : K} (hhw : 0 < hw) (hhh : 0 < hh)
    {c p : Point K} (h : |p.x - c.x| / hw + |p.y - c.y| / hh = 1) :
    ∃ s ∈ sides [⟨c.x, c.y - hh⟩, ⟨c.x + hw, c.y⟩, ⟨c.x, c.y + hh⟩, ⟨c.x - hw, c.y⟩],
      s.1.Between s.2 p := by
  have hx : |p.x - c.x| = |p.x - c.x| / hw * hw := (div_mul_cancel₀ _ hhw.ne').symm
  have hy : |p.y - c.y| = |p.y - c.y| / hh * hh := (div_mul_cancel₀ _ hhh.ne').symm
  have ht := div_nonneg (abs_nonneg (p.x - c.x)) hhw.le
  have hu := div_nonneg (abs_nonneg (p.y - c.y)) hhh.le
  generalize |p.x - c.x| / hw = t at *
  generalize |p.y - c.y| / hh = u at *
  have hbetween : ∀ {a b : Point K} {s : K}, 0 ≤ s → s ≤ 1 → p.x = a.x + s * (b.x - a.x) →
      p.y = a.y + s * (b.y - a.y) → a.Between b p := by
    intro a b s h0 h1 hpx hpy
    obtain ⟨px, py⟩ := p
    cases hpx
    cases hpy
    exact ⟨s, h0, h1, rfl⟩
  obtain rfl : u = 1 - t := by linarith
  have hle : t ≤ 1 := by linarith
  simp only [sides, List.tail_cons, List.take_succ_cons, List.take_zero, List.cons_append,
    List.nil_append, List.zip_cons_cons, List.zip_nil_right, List.mem_cons, List.not_mem_nil,
    or_false, exists_eq_or_imp, exists_eq_left]
  rcases abs_choice (p.x - c.x) with hsx | hsx <;> rcases abs_choice (p.y - c.y) with hsy | hsy <;>
    rw [hsx] at hx <;> rw [hsy] at hy
  -- To the lower right, the upper right, the lower left and the upper left of the centre.
  · refine .inr (.inl (hbetween hu (by linarith) ?_ ?_)) <;> dsimp only <;> linarith
  · refine .inl (hbetween ht hle ?_ ?_) <;> dsimp only <;> linarith
  · refine .inr (.inr (.inl (hbetween ht hle ?_ ?_))) <;> dsimp only <;> linarith
  · refine .inr (.inr (.inr (hbetween hu (by linarith) ?_ ?_))) <;> dsimp only <;> linarith

end Lines

variable {K : Type} [Field K] [LinearOrder K] [FloorRing K] [PlaneFunctions K]

/-- A point lies on a side of a rectangle. -/
def Rect.HasOnSide (r : Rect K) (p : Point K) : Prop :=
  (p.x = r.x ∨ p.x = r.right) ∧ r.y ≤ p.y ∧ p.y ≤ r.bottom ∨
    (p.y = r.y ∨ p.y = r.bottom) ∧ r.x ≤ p.x ∧ p.x ≤ r.right

/-- A point lies on the line that an element is drawn with. Rounded corners count as sharp. -/
def Element.Traces : Element K → Point K → Prop
  | .rect r _ _, p => r.HasOnSide p
  | .ellipse c rx ry _, p =>
    (p.x - c.x) / rx * ((p.x - c.x) / rx) + (p.y - c.y) / ry * ((p.y - c.y) / ry) = 1
  | .polygon corners _, p => ∃ s ∈ sides corners, s.1.Between s.2 p
  | _, _ => False

/-- A point lies on what a node is drawn with, or on its rectangle if it is drawn without an
outline. -/
def PlacedNode.OnOutline (n : PlacedNode K) (p : Point K) : Prop :=
  match Drawing.outline n (.ofAttrs n.attrs) with
  | [] => n.rect.HasOnSide p
  | drawn => ∃ e ∈ drawn, e.Traces p

/-- The outline, seen from its centre, passes through a point. -/
def Layout.Outline.PassesThrough (o : Layout.Outline K) (p : Point K) : Prop :=
  o.shape.Bounds (half o.rect.width) (half o.rect.height) (p.x - o.rect.center.x)
    (p.y - o.rect.center.y)

/-! ## From the centre to what is drawn -/

namespace Rect

variable (r : Rect K)

theorem center_x : r.center.x = r.x + half r.width := rfl

theorem center_y : r.center.y = r.y + half r.height := rfl

/-- Moving moves the centre. -/
theorem center_shift (dx dy : K) : (r.shift dx dy).center = r.center.shift dx dy :=
  congrArg₂ Point.mk (add_right_comm _ _ _) (add_right_comm _ _ _)

theorem center_centered (c : Point K) (w h : K) : (centered c w h).center = c :=
  congrArg₂ Point.mk (sub_add_cancel _ _) (sub_add_cancel _ _)

variable [IsStrictOrderedRing K]

theorem right_eq : r.right = r.center.x + half r.width := by
  have hhalf := half_add_half r.width
  have hcenter := r.center_x
  change r.x + r.width = r.center.x + half r.width
  linarith

theorem bottom_eq : r.bottom = r.center.y + half r.height := by
  have hhalf := half_add_half r.height
  have hcenter := r.center_y
  change r.y + r.height = r.center.y + half r.height
  linarith

theorem hasOnSide_of_bounds {r : Rect K} {p : Point K}
    (h : Shape.box.Bounds (half r.width) (half r.height) (p.x - r.center.x) (p.y - r.center.y)) :
    r.HasOnSide p := by
  have hends : ∀ {a c e near far : K}, |a - c| = e → c = near + e → far = c + e →
      a = near ∨ a = far := by
    intro a c e near far habs hnear hfar
    rcases abs_choice (a - c) with hsign | hsign <;> rw [hsign] at habs
    · right
      linarith
    · left
      linarith
  have hwithin : ∀ {a c e near far : K}, |a - c| ≤ e → c = near + e → far = c + e →
      near ≤ a ∧ a ≤ far := by
    intro a c e near far habs hnear hfar
    obtain ⟨hlow, hhigh⟩ := abs_le.mp habs
    constructor <;> linarith
  rcases h with ⟨hx, hy⟩ | ⟨hy, hx⟩
  · exact .inl ⟨hends hx r.center_x r.right_eq, hwithin hy r.center_y r.bottom_eq⟩
  · exact .inr ⟨hends hy r.center_y r.bottom_eq, hwithin hx r.center_x r.right_eq⟩

end Rect

variable [IsStrictOrderedRing K]

/-- What is the outline of a node seen from its centre is what the node is drawn with. -/
theorem PlacedNode.onOutline {n : PlacedNode K} {p : Point K} (hwidth : 0 < n.rect.width)
    (hheight : 0 < n.rect.height) (h : n.outline.PassesThrough p) : n.OnOutline p := by
  obtain ⟨id, r, rank, order, lines, shape, attrs⟩ := n
  dsimp only [Layout.Outline.PassesThrough, outline] at *
  cases shape with
  | plain => exact Rect.hasOnSide_of_bounds h
  | box => exact ⟨_, List.mem_singleton_self _, Rect.hasOnSide_of_bounds h⟩
  | ellipse => exact ⟨_, List.mem_singleton_self _, h⟩
  | circle =>
    refine ⟨_, List.mem_singleton_self _, ?_⟩
    simp only [Shape.Bounds, ← half_min] at h
    exact h
  | diamond =>
    refine ⟨_, List.mem_singleton_self _, ?_⟩
    have htop : r.y = r.center.y - half r.height := eq_sub_of_add_eq r.center_y.symm
    have hleft : r.x = r.center.x - half r.width := eq_sub_of_add_eq r.center_x.symm
    simp only [Element.Traces, r.right_eq, r.bottom_eq, htop, hleft]
    exact between_of_diamond (half_pos hwidth) (half_pos hheight) h

/-! ## Clipping -/

/-- Square roots are exact. -/
def ExactRoots (K : Type) [Field K] [LinearOrder K] [PlaneFunctions K] : Prop :=
  ∀ x : K, 0 ≤ x →
    0 ≤ PlaneFunctions.sqrt x ∧ PlaneFunctions.sqrt x * PlaneFunctions.sqrt x = x

namespace Layout

omit [IsStrictOrderedRing K] in
/-- A ray leaves through a horizontal side if it is steeper than the diagonal. -/
theorem leaveRect_eq (hw hh dx dy : K) :
    leaveRect hw hh dx dy =
      if |dx| * hh < |dy| * hw then
        ((if dy < 0 then -hh else hh) * dx / dy, if dy < 0 then -hh else hh)
      else (if dx < 0 then -hw else hw, (if dx < 0 then -hw else hw) * dy / dx) := by
  simp only [leaveRect, Scalar.zero_eq]
  rfl

section Rays

variable {hw hh dx dy : K} (hhw : 0 < hw) (hhh : 0 < hh) (hne : dx ≠ 0 ∨ dy ≠ 0)

include hhw hhh hne

theorem leaveRect_bounds :
    Shape.box.Bounds hw hh (leaveRect hw hh dx dy).1 (leaveRect hw hh dx dy).2 := by
  have hsign : ∀ {e d : K}, 0 < e → |if d < 0 then -e else e| = e := by
    intro e d he
    split
    · rw [abs_neg, abs_of_pos he]
    · exact abs_of_pos he
  rw [leaveRect_eq]
  split
  · rename_i hsteep
    have hdy : 0 < |dy| := by
      have hlow := mul_nonneg (abs_nonneg dx) hhh.le
      exact pos_of_mul_pos_left (lt_of_le_of_lt hlow hsteep) hhw.le
    refine .inr ⟨hsign hhh, ?_⟩
    rw [abs_div, abs_mul, hsign hhh, div_le_iff₀ hdy, mul_comm hh, mul_comm hw]
    exact hsteep.le
  · rename_i hflat
    have hdx : 0 < |dx| := by
      refine abs_pos.mpr fun hzero => ?_
      have hdy := abs_pos.mpr (hne.resolve_left fun h => h hzero)
      rw [hzero, abs_zero, zero_mul] at hflat
      exact hflat (mul_pos hdy hhw)
    refine .inl ⟨hsign hhw, ?_⟩
    rw [abs_div, abs_mul, hsign hhw, div_le_iff₀ hdx, mul_comm hw, mul_comm hh]
    exact not_lt.mp hflat

theorem ellipse_bounds (hroots : ExactRoots K) {t : K}
    (ht : t = 1 / PlaneFunctions.sqrt (dx / hw * (dx / hw) + dy / hh * (dy / hh))) :
    Shape.ellipse.Bounds hw hh (t * dx) (t * dy) := by
  have hpos : 0 < dx / hw * (dx / hw) + dy / hh * (dy / hh) := by
    rcases hne with hdx | hdy
    · have hsquare := mul_self_pos.mpr (div_ne_zero hdx hhw.ne')
      exact add_pos_of_pos_of_nonneg hsquare (mul_self_nonneg _)
    · have hsquare := mul_self_pos.mpr (div_ne_zero hdy hhh.ne')
      exact add_pos_of_nonneg_of_pos (mul_self_nonneg _) hsquare
  obtain ⟨-, hsquare⟩ := hroots _ hpos.le
  generalize PlaneFunctions.sqrt (dx / hw * (dx / hw) + dy / hh * (dy / hh)) = root at *
  have hroot : root ≠ 0 := by
    rintro rfl
    rw [mul_zero] at hsquare
    exact hpos.ne hsquare
  change t * dx / hw * (t * dx / hw) + t * dy / hh * (t * dy / hh) = 1
  calc t * dx / hw * (t * dx / hw) + t * dy / hh * (t * dy / hh)
      = t * t * (dx / hw * (dx / hw) + dy / hh * (dy / hh)) := by ring
    _ = 1 / root * (1 / root) * (root * root) := by rw [← hsquare, ht]
    _ = 1 := by field_simp

omit [FloorRing K] [PlaneFunctions K] in
theorem diamond_bounds {t : K} (ht : t = 1 / (|dx| / hw + |dy| / hh)) :
    Shape.diamond.Bounds hw hh (t * dx) (t * dy) := by
  have hpos : 0 < |dx| / hw + |dy| / hh := by
    rcases hne with hdx | hdy
    · have hlength := div_pos (abs_pos.mpr hdx) hhw
      exact add_pos_of_pos_of_nonneg hlength (div_nonneg (abs_nonneg _) hhh.le)
    · have hlength := div_pos (abs_pos.mpr hdy) hhh
      exact add_pos_of_nonneg_of_pos (div_nonneg (abs_nonneg _) hhw.le) hlength
  have htpos : 0 < t := ht ▸ one_div_pos.mpr hpos
  change |t * dx| / hw + |t * dy| / hh = 1
  calc |t * dx| / hw + |t * dy| / hh
      = t * (|dx| / hw + |dy| / hh) := by
        rw [abs_mul, abs_mul, abs_of_pos htpos]
        ring
    _ = 1 := by rw [ht, one_div_mul_cancel hpos.ne']

end Rays

/-- Towards any point but its centre, a segment leaves a node on its outline. -/
theorem passesThrough_clip (hroots : ExactRoots K) {o : Outline K} {p : Point K}
    (hwidth : 0 < o.rect.width) (hheight : 0 < o.rect.height)
    (hne : p.x ≠ o.rect.center.x ∨ p.y ≠ o.rect.center.y) :
    o.PassesThrough (clip o p) := by
  obtain ⟨r, shape⟩ := o
  dsimp only [Outline.PassesThrough] at *
  have hhw := half_pos hwidth
  have hhh := half_pos hheight
  have hd : p.x - r.center.x ≠ 0 ∨ p.y - r.center.y ≠ 0 :=
    hne.imp sub_ne_zero.mpr sub_ne_zero.mpr
  have hout : (p.x - r.center.x == 0 && p.y - r.center.y == 0) = false := by
    rw [Bool.and_eq_false_iff]
    exact hd.imp beq_false_of_ne beq_false_of_ne
  have hextent : ∀ {x : K}, 0 < x → (x == 0) = false := fun hx => beq_false_of_ne hx.ne'
  simp only [clip, Scalar.zero_eq, Scalar.one_eq, Scalar.div_two, hout, hextent hhw, hextent hhh,
    hextent (lt_min hhw hhh), Bool.or_false, Bool.false_eq_true, if_false]
  cases shape with
  | box | plain =>
    simp only [add_sub_cancel_left]
    exact leaveRect_bounds hhw hhh hd
  | ellipse =>
    simp only [add_sub_cancel_left]
    exact ellipse_bounds hhw hhh hd hroots rfl
  | circle =>
    simp only [add_sub_cancel_left]
    exact ellipse_bounds (lt_min hhw hhh) (lt_min hhw hhh) hd hroots rfl
  | diamond =>
    simp only [add_sub_cancel_left]
    exact diamond_bounds hhw hhh hd rfl

end Layout
end Tiered
