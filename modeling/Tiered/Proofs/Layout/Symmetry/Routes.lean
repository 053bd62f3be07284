import Tiered.Proofs.Layout.Frame

/-!
# Symmetries of routes

A drawing that is flipped, or has its axes exchanged, is routed as it was.

* `Symmetry`: a symmetry moves points and rectangles within a box, and with them whole layouts;
* `clip_eq`: each outline is left where its gauge is one, and gauges are even and symmetric, so that
  outlines are left symmetrically (`clip_symmetry`);
* `Rigid.midpoint_map`: the middle of a route is moved with it, as lengths are kept;
* `selfLoop_symmetry`: a loop that is flipped is the loop of the flipped node, the other way round;
  its middle is the same both ways (`midpoint_selfLoop`).
-/

namespace Tiered

/-- What is done to a drawing. -/
inductive Symmetry where
  /-- Top and bottom change places. -/
  | flipY
  /-- Left and right change places. -/
  | flipX
  /-- The axes change places. -/
  | transpose
  deriving DecidableEq

namespace Symmetry

/-- The direction of the drawings that a symmetry is meant for. -/
def source : Symmetry → Direction
  | flipY | transpose => .topBottom
  | flipX => .leftRight

/-- The direction that these drawings have afterwards. -/
def target : Symmetry → Direction
  | flipY => .bottomTop
  | flipX => .rightLeft
  | transpose => .leftRight

/-- Flipped loops run the other way round. -/
def isFlip (s : Symmetry) : Bool := s != transpose

variable {K : Type} [Scalar K]

def size (s : Symmetry) (size : K × K) : K × K :=
  match s with
  | flipY | flipX => size
  | transpose => size.swap

/-- The image of a point of a drawing that fills a box. -/
def point (s : Symmetry) (b : Box K) (p : Point K) : Point K :=
  match s with
  | flipY => ⟨p.x, b.minY + b.maxY - p.y⟩
  | flipX => ⟨b.minX + b.maxX - p.x, p.y⟩
  | transpose => ⟨p.y, p.x⟩

def rect (s : Symmetry) (b : Box K) (r : Rect K) : Rect K :=
  match s with
  | flipY => { r with y := b.minY + b.maxY - r.bottom }
  | flipX => { r with x := b.minX + b.maxX - r.right }
  | transpose => ⟨r.y, r.x, r.height, r.width⟩

def box (s : Symmetry) (b : Box K) : Box K :=
  match s with
  | flipY | flipX => b
  | transpose => ⟨b.minY, b.minX, b.maxY, b.maxX⟩

/-- The image of a route, from its source to its target. -/
def route (s : Symmetry) (b : Box K) (loop : Bool) (points : List (Point K)) : List (Point K) :=
  if s.isFlip && loop then (points.map (s.point b)).reverse else points.map (s.point b)

def node (s : Symmetry) (b : Box K) (n : PlacedNode K) : PlacedNode K :=
  { n with rect := s.rect b n.rect }

def edge (s : Symmetry) (b : Box K) (e : RoutedEdge K) : RoutedEdge K :=
  let points := s.route b (e.source == e.target) e.points
  { e with
    points
    arrowhead := Layout.arrowhead points
    label := e.label.map fun label => { label with rect := s.rect b label.rect } }

/-- The image of a drawing within its own box. -/
def layout (s : Symmetry) (l : Layout K) : Layout K :=
  { l with
    nodes := l.nodes.map (s.node l.box)
    edges := l.edges.map (s.edge l.box)
    box := s.box l.box
    direction := s.target }

end Symmetry

/-- Lengths do not depend on the order and the signs of the components, and only zero has none. -/
structure SymmetricLengths (K : Type) [Field K] [LinearOrder K] [PlaneFunctions K] : Prop where
  swap : ∀ x y : K, PlaneFunctions.hypot x y = PlaneFunctions.hypot y x
  neg : ∀ x y : K, PlaneFunctions.hypot (-x) y = PlaneFunctions.hypot x y
  pos : ∀ x y : K, x ≠ 0 ∨ y ≠ 0 → 0 < PlaneFunctions.hypot x y

variable {K : Type} [Field K] [LinearOrder K] [FloorRing K] [PlaneFunctions K]

omit [FloorRing K] in
theorem SymmetricLengths.neg_right (h : SymmetricLengths K) (x y : K) :
    PlaneFunctions.hypot x (-y) = PlaneFunctions.hypot x y := by
  rw [h.swap, h.neg, h.swap]

/-! ## Points and rectangles -/

namespace Symmetry

variable (s : Symmetry) (b : Box K)

/-- What is placed along and across the layers is placed symmetrically. -/
theorem onScreen_target (along across : K) :
    Layout.onScreen s.target along across =
      s.point .empty (Layout.onScreen s.source along across) := by
  cases s <;> simp [source, target, Layout.onScreen, point, Box.empty, Scalar.zero_eq]

theorem rect_pos {r : Rect K} (hwidth : 0 < r.width) (hheight : 0 < r.height) :
    0 < (s.rect b r).width ∧ 0 < (s.rect b r).height := by
  cases s with
  | flipY | flipX => exact ⟨hwidth, hheight⟩
  | transpose => exact ⟨hheight, hwidth⟩

variable [IsStrictOrderedRing K]

theorem center_rect (r : Rect K) : (s.rect b r).center = s.point b r.center := by
  have hhalf : ∀ x : K, half x + half x = x := half_add_half
  cases s with
  | flipY =>
    refine congrArg (Point.mk _) ?_
    change b.minY + b.maxY - (r.y + r.height) + half r.height =
      b.minY + b.maxY - (r.y + half r.height)
    linarith [hhalf r.height]
  | flipX =>
    refine congrArg (Point.mk · _) ?_
    change b.minX + b.maxX - (r.x + r.width) + half r.width =
      b.minX + b.maxX - (r.x + half r.width)
    linarith [hhalf r.width]
  | transpose => rfl

theorem rect_centered (c : Point K) (size : K × K) :
    s.rect b (.centered c size.1 size.2) =
      .centered (s.point b c) (s.size size).1 (s.size size).2 := by
  have hhalf : ∀ x : K, half x + half x = x := half_add_half
  cases s with
  | flipY =>
    refine congrArg (Rect.mk _ · _ _) ?_
    change b.minY + b.maxY - (c.y - half size.2 + size.2) = b.minY + b.maxY - c.y - half size.2
    linarith [hhalf size.2]
  | flipX =>
    refine congrArg (Rect.mk · _ _ _) ?_
    change b.minX + b.maxX - (c.x - half size.1 + size.1) = b.minX + b.maxX - c.x - half size.1
    linarith [hhalf size.1]
  | transpose => rfl

end Symmetry

/-! ## Clipping -/

/-- How far a vector reaches, measured by a shape with these half axes: to its outline it is one. -/
def Shape.gauge (shape : Shape) (hw hh dx dy : K) : K :=
  match shape with
  | .box | .plain => max (|dx| / hw) (|dy| / hh)
  | .ellipse => PlaneFunctions.sqrt (dx / hw * (dx / hw) + dy / hh * (dy / hh))
  | .circle => PlaneFunctions.sqrt
      (dx / min hw hh * (dx / min hw hh) + dy / min hw hh * (dy / min hw hh))
  | .diamond => |dx| / hw + |dy| / hh

namespace Shape

section Gauge

variable (shape : Shape) (hw hh dx dy : K)

omit [FloorRing K]

theorem gauge_neg_left [IsStrictOrderedRing K] :
    shape.gauge hw hh (-dx) dy = shape.gauge hw hh dx dy := by
  cases shape <;> simp only [gauge, abs_neg, neg_div, neg_mul_neg]

theorem gauge_neg_right [IsStrictOrderedRing K] :
    shape.gauge hw hh dx (-dy) = shape.gauge hw hh dx dy := by
  cases shape <;> simp only [gauge, abs_neg, neg_div, neg_mul_neg]

theorem gauge_swap : shape.gauge hh hw dy dx = shape.gauge hw hh dx dy := by
  cases shape with
  | box | plain => exact max_comm _ _
  | ellipse => exact congrArg PlaneFunctions.sqrt (add_comm _ _)
  | circle =>
    simp only [gauge, min_comm hh hw]
    exact congrArg PlaneFunctions.sqrt (add_comm _ _)
  | diamond => exact add_comm _ _

end Gauge

end Shape

namespace Layout

section Clipping

variable [IsStrictOrderedRing K]

/-- A rectangle is left through the side that the ray reaches first. -/
theorem leaveRect_eq_gauge {hw hh dx dy : K} (hhw : 0 < hw) (hhh : 0 < hh)
    (hne : dx ≠ 0 ∨ dy ≠ 0) :
    leaveRect hw hh dx dy = (1 / Shape.box.gauge hw hh dx dy * dx,
      1 / Shape.box.gauge hw hh dx dy * dy) := by
  have hsign : ∀ {e d : K}, d ≠ 0 → (if d < 0 then -e else e) = e / |d| * d := by
    intro e d hd
    have hdiv := div_mul_cancel₀ e hd
    split
    · rename_i hneg
      rw [abs_of_neg hneg, div_neg, neg_mul, hdiv]
    · rename_i hpos
      rw [abs_of_nonneg (not_lt.mp hpos), hdiv]
  have hside : ∀ x y : K, |x| / hw < |y| / hh ↔ |x| * hh < |y| * hw :=
    fun x y => div_lt_div_iff₀ hhw hhh
  rw [leaveRect_eq]
  by_cases hsteep : |dx| * hh < |dy| * hw
  · have hdy : dy ≠ 0 := by
      rintro rfl
      rw [abs_zero, zero_mul] at hsteep
      exact absurd hsteep (not_lt.mpr (mul_nonneg (abs_nonneg dx) hhh.le))
    have hgauge : 1 / Shape.box.gauge hw hh dx dy = hh / |dy| := by
      rw [Shape.gauge, max_eq_right ((hside dx dy).mpr hsteep).le, one_div_div]
    rw [if_pos hsteep, hgauge, hsign hdy]
    refine congrArg (Prod.mk · _) ?_
    rw [mul_right_comm, mul_div_cancel_right₀ _ hdy]
  · have hdx : dx ≠ 0 := by
      rintro rfl
      rw [abs_zero, zero_mul, not_lt] at hsteep
      have hdy := abs_pos.mpr (hne.resolve_left fun h => h rfl)
      exact absurd hsteep (not_le.mpr (mul_pos hdy hhw))
    have hgauge : 1 / Shape.box.gauge hw hh dx dy = hw / |dx| := by
      rw [Shape.gauge, max_eq_left (not_lt.mp fun h => hsteep ((hside dx dy).mp h)), one_div_div]
    rw [if_neg hsteep, hgauge, hsign hdx]
    refine congrArg (Prod.mk _) ?_
    rw [mul_right_comm, mul_div_cancel_right₀ _ hdx]

/-- Every outline is left where its gauge is one. -/
theorem clip_eq {o : Outline K} (hwidth : 0 < o.rect.width) (hheight : 0 < o.rect.height)
    (p : Point K) :
    clip o p =
      let c := o.rect.center
      let t := 1 / o.shape.gauge (half o.rect.width) (half o.rect.height) (p.x - c.x) (p.y - c.y)
      ⟨c.x + t * (p.x - c.x), c.y + t * (p.y - c.y)⟩ := by
  obtain ⟨r, shape⟩ := o
  dsimp only at *
  have hhw := half_pos hwidth
  have hhh := half_pos hheight
  have hextent : ∀ {x : K}, 0 < x → (x == 0) = false := fun hx => beq_false_of_ne hx.ne'
  by_cases hne : p.x - r.center.x = 0 ∧ p.y - r.center.y = 0
  · have hcenter : (p.x - r.center.x == 0 && p.y - r.center.y == 0) = true := by
      rw [Bool.and_eq_true, beq_iff_eq, beq_iff_eq]
      exact hne
    simp only [clip, Scalar.zero_eq, hcenter, if_true]
    rw [hne.1, hne.2, mul_zero, add_zero, add_zero]
  · have hout : (p.x - r.center.x == 0 && p.y - r.center.y == 0) = false := by
      rw [← Bool.not_eq_true, Bool.and_eq_true, beq_iff_eq, beq_iff_eq]
      exact hne
    simp only [clip, Scalar.zero_eq, Scalar.one_eq, Scalar.div_two, hout, hextent hhw, hextent hhh,
      hextent (lt_min hhw hhh), Bool.or_false, Bool.false_eq_true, if_false]
    cases shape with
    | box => rw [leaveRect_eq_gauge hhw hhh (not_and_or.mp hne)]
    | plain =>
      rw [leaveRect_eq_gauge hhw hhh (not_and_or.mp hne)]
      rfl
    | ellipse | circle | diamond => rfl

/-- Outlines are left symmetrically. -/
theorem clip_symmetry (s : Symmetry) (b : Box K) {r : Rect K} (hwidth : 0 < r.width)
    (hheight : 0 < r.height) (shape : Shape) (p : Point K) :
    clip ⟨s.rect b r, shape⟩ (s.point b p) = s.point b (clip ⟨r, shape⟩ p) := by
  have himage := s.rect_pos b hwidth hheight
  rw [clip_eq (o := ⟨r, shape⟩) hwidth hheight,
    clip_eq (o := ⟨s.rect b r, shape⟩) himage.1 himage.2]
  dsimp only
  rw [s.center_rect b r]
  generalize r.center = c
  cases s with
  | flipY =>
    have hy : b.minY + b.maxY - p.y - (b.minY + b.maxY - c.y) = -(p.y - c.y) := by ring
    simp only [Symmetry.rect, Symmetry.point, hy, Shape.gauge_neg_right]
    refine congrArg (Point.mk _) ?_
    ring
  | flipX =>
    have hx : b.minX + b.maxX - p.x - (b.minX + b.maxX - c.x) = -(p.x - c.x) := by ring
    simp only [Symmetry.rect, Symmetry.point, hx, Shape.gauge_neg_left]
    refine congrArg (Point.mk · _) ?_
    ring
  | transpose =>
    simp only [Symmetry.rect, Symmetry.point, Shape.gauge_swap shape (half r.width)]

end Clipping

section Maps

variable {L : Type} [Scalar L] (f : Point L → Point L)

/-- A route is clipped as its image is if single ends are. -/
theorem clipLast_map {o o' : Outline L} (hclip : ∀ p, clip o' (f p) = f (clip o p))
    (points : List (Point L)) : clipLast o' (points.map f) = (clipLast o points).map f := by
  fun_induction clipLast o points with
  | case1 p q => simp only [List.map_cons, List.map_nil, clipLast, hclip]
  | case2 p rest hlong ih =>
    rw [List.map_cons, clipLast, ih, List.map_cons]
    intro q hq
    obtain ⟨q', rfl, -⟩ := List.map_eq_singleton_iff.mp hq
    exact hlong q' rfl
  | case3 => rfl

theorem clipEnds_map {source source' target target' : Outline L}
    (hsource : ∀ p, clip source' (f p) = f (clip source p))
    (htarget : ∀ p, clip target' (f p) = f (clip target p)) (points : List (Point L)) :
    clipEnds source' target' (points.map f) = (clipEnds source target points).map f := by
  fun_cases clipEnds source target points with
  | case1 first second rest =>
    rw [List.map_cons, List.map_cons, clipEnds, hsource, ← clipLast_map f htarget]
    rfl
  | case2 _ hshort =>
    rw [clipEnds]
    intro first second rest heq
    obtain ⟨first', tail, hpoints, -, htail⟩ := List.map_eq_cons_iff.mp heq
    obtain ⟨second', rest', htail', -, -⟩ := List.map_eq_cons_iff.mp htail
    exact hshort first' second' rest' (hpoints.trans (congrArg _ htail'))

end Maps

/-! ## Midpoints -/

/-- A map of the plane that keeps lengths, and points between two others where they are. -/
structure Rigid {L : Type} [Scalar L] (f : Point L → Point L) : Prop where
  distance : ∀ p q, (f p).distance (f q) = p.distance q
  between : ∀ (p q : Point L) (t : L), f ⟨p.x + t * (q.x - p.x), p.y + t * (q.y - p.y)⟩ =
    ⟨(f p).x + t * ((f q).x - (f p).x), (f p).y + t * ((f q).y - (f p).y)⟩

namespace Rigid

variable {L : Type} [Scalar L] {f : Point L → Point L} (hf : Rigid f)

include hf

theorem segmentLengths_map (points : List (Point L)) :
    segmentLengths (points.map f) = segmentLengths points := by
  fun_induction segmentLengths points with
  | case1 p q rest ih => rw [← ih, List.map_cons, List.map_cons, segmentLengths, hf.distance]
  | case2 points hshort =>
    match points with
    | [] => rfl
    | [p] => rfl
    | p :: q :: rest => exact absurd rfl (hshort p q rest)

theorem pointAlong_map (last : Point L) (remaining : L) (points : List (Point L)) :
    pointAlong (f last) remaining (points.map f) = f (pointAlong last remaining points) := by
  fun_induction pointAlong last remaining points with
  | case1 remaining p q rest length hends t =>
    rw [List.map_cons, List.map_cons, pointAlong, hf.between]
    simp only [hf.distance]
    rw [if_pos hends]
  | case2 remaining p q rest length hends ih =>
    rw [List.map_cons, List.map_cons, pointAlong, ← ih]
    simp only [hf.distance]
    rw [if_neg hends]
    rfl
  | case3 remaining points hshort =>
    match points with
    | [] => rfl
    | [p] => rfl
    | p :: q :: rest => exact absurd rfl (hshort p q rest)

theorem midpoint_map {points : List (Point L)} (h : points ≠ []) :
    midpoint (points.map f) = f (midpoint points) := by
  obtain ⟨first, rest, rfl⟩ := List.exists_cons_of_ne_nil h
  have hlast : ((first :: rest).map f).getLast?.getD .origin =
      f ((first :: rest).getLast?.getD .origin) := by
    rw [List.getLast?_map, List.getLast?_cons, Option.map_some]
    rfl
  unfold midpoint
  dsimp only
  rw [hf.segmentLengths_map, hlast, hf.pointAlong_map]
  split <;> rfl

end Rigid

theorem rigid_symmetry [IsStrictOrderedRing K] (hlengths : SymmetricLengths K) (s : Symmetry)
    (b : Box K) : Rigid (s.point b) := by
  constructor
  · intro p q
    cases s with
    | flipY =>
      have hy : b.minY + b.maxY - q.y - (b.minY + b.maxY - p.y) = -(q.y - p.y) := by ring
      change PlaneFunctions.hypot (q.x - p.x) (b.minY + b.maxY - q.y - (b.minY + b.maxY - p.y)) =
        PlaneFunctions.hypot (q.x - p.x) (q.y - p.y)
      rw [hy, hlengths.neg_right]
    | flipX =>
      have hx : b.minX + b.maxX - q.x - (b.minX + b.maxX - p.x) = -(q.x - p.x) := by ring
      change PlaneFunctions.hypot (b.minX + b.maxX - q.x - (b.minX + b.maxX - p.x)) (q.y - p.y) =
        PlaneFunctions.hypot (q.x - p.x) (q.y - p.y)
      rw [hx, hlengths.neg]
    | transpose => exact hlengths.swap _ _
  · intro p q t
    cases s with
    | flipY =>
      refine congrArg (Point.mk _) ?_
      simp only [Symmetry.point]
      ring
    | flipX =>
      refine congrArg (Point.mk · _) ?_
      simp only [Symmetry.point]
      ring
    | transpose => rfl

/-! ## Loops -/

section Loops

variable [IsStrictOrderedRing K]

theorem selfLoop_symmetry (s : Symmetry) (b : Box K) (r : Rect K) (nth : Nat) :
    selfLoop (s.rect b r) s.target nth = s.route b true (selfLoop r s.source nth) := by
  have hcenter := s.center_rect b r
  cases s with
  | flipY =>
    simp only [selfLoop, hcenter, Symmetry.target, Symmetry.source, Symmetry.route, Symmetry.point,
      sub_sub, sub_add]
    rfl
  | flipX =>
    simp only [selfLoop, hcenter, Symmetry.target, Symmetry.source, Symmetry.route, Symmetry.point,
      sub_sub, sub_add]
    rfl
  | transpose => rfl

/-- The middle of a route out, over and back is the middle of its second segment. -/
theorem midpoint_detour {p q r t : Point K} (hback : r.distance t = p.distance q)
    (hout : 0 < p.distance q) (hover : 0 < q.distance r) :
    midpoint [p, q, r, t] = ⟨q.x + half (r.x - q.x), q.y + half (r.y - q.y)⟩ := by
  have htotal : half (p.distance q + q.distance r + p.distance q) =
      p.distance q + half (q.distance r) := by
    have hq := half_add_half (p.distance q)
    rw [half_add, half_add]
    linarith
  have hrest : p.distance q + half (q.distance r) - p.distance q = half (q.distance r) :=
    add_sub_cancel_left _ _
  have hhalf := half_pos hover
  have hwhole := half_add_half (q.distance r)
  have hlong : (p.distance q + q.distance r + p.distance q == 0) = false :=
    beq_false_of_ne (by linarith)
  have hhalfway : ∀ x : K, half (q.distance r) / q.distance r * x = half x := by
    intro x
    rw [half, half, div_div_cancel_left' hover.ne']
    exact inv_mul_eq_div _ _
  simp only [midpoint, segmentLengths, List.foldl_cons, List.foldl_nil, Scalar.zero_eq,
    Scalar.div_two, zero_add, hback, htotal, hlong, Bool.false_eq_true, if_false]
  rw [pointAlong]
  simp only
  rw [if_neg fun h => absurd h.1 (by linarith), hrest, pointAlong]
  simp only
  rw [if_pos ⟨by linarith, Scalar.zero_eq.trans_lt hover⟩, hhalfway, hhalfway]

theorem loopReach_pos (nth : Nat) : (0 : K) < loopReach * ((nth + 1 : Nat) : K) :=
  mul_pos (Nat.cast_pos.mpr (by decide)) (Nat.cast_pos.mpr nth.succ_pos)

/-- The middle of a loop is level with the centre of its node. -/
theorem midpoint_selfLoop (hlengths : SymmetricLengths K) {r : Rect K} (hwidth : 0 < r.width)
    (hheight : 0 < r.height) (d : Direction) (nth : Nat) :
    midpoint (selfLoop r d nth) =
      if d.isHorizontal then ⟨r.center.x, r.bottom + loopReach * ((nth + 1 : Nat) : K)⟩
      else ⟨r.right + loopReach * ((nth + 1 : Nat) : K), r.center.y⟩ := by
  have hreach := loopReach_pos (K := K) nth
  have hquarter : ∀ {x : K}, 0 < x → 0 < x / ((4 : ℕ) : K) :=
    fun hx => div_pos hx (Nat.cast_pos.mpr (by decide))
  have hmiddle : ∀ c q : K, c - q + half (c + q - (c - q)) = c := by
    intro c q
    have hq := half_add_half (c + q - (c - q))
    linarith
  have hlevel : ∀ x : K, x + half (x - x) = x := by
    intro x
    rw [sub_self, half, zero_div, add_zero]
  have hout : ∀ {x e : K}, 0 < e → x + e - x ≠ 0 := by
    intro x e he
    rw [add_sub_cancel_left]
    exact he.ne'
  have hover : ∀ {c q : K}, 0 < q → c + q - (c - q) ≠ 0 := by
    intro c q hq heq
    linarith
  unfold selfLoop
  dsimp only
  split
  · rw [midpoint_detour, hlevel]
    · exact congrArg (Point.mk · _) (hmiddle _ _)
    · change PlaneFunctions.hypot _ _ = PlaneFunctions.hypot _ _
      rw [sub_self, sub_self, ← hlengths.neg_right, neg_sub]
    · exact hlengths.pos _ _ (.inr (hout hreach))
    · exact hlengths.pos _ _ (.inl (hover (hquarter hwidth)))
  · rw [midpoint_detour, hlevel]
    · exact congrArg (Point.mk _) (hmiddle _ _)
    · change PlaneFunctions.hypot _ _ = PlaneFunctions.hypot _ _
      rw [sub_self, sub_self, ← hlengths.neg, neg_sub]
    · exact hlengths.pos _ _ (.inl (hout hreach))
    · exact hlengths.pos _ _ (.inr (hover (hquarter hheight)))

/-- The middles of loops are symmetric. -/
theorem midpoint_selfLoop_symmetry (hlengths : SymmetricLengths K) (s : Symmetry) (b : Box K)
    {r : Rect K} (hwidth : 0 < r.width) (hheight : 0 < r.height) (nth : Nat) :
    midpoint (selfLoop (s.rect b r) s.target nth) =
      s.point b (midpoint (selfLoop r s.source nth)) := by
  have himage := s.rect_pos b hwidth hheight
  rw [midpoint_selfLoop hlengths himage.1 himage.2, midpoint_selfLoop hlengths hwidth hheight,
    s.center_rect b r]
  cases s <;> rfl

end Loops

end Layout

end Tiered
