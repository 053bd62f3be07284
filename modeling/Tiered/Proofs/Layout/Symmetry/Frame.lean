import Tiered.Proofs.Layout.Symmetry.Routes

/-!
# Symmetries of frames

* `Covers`: the box around some points depends on their coordinates only, so that the corners of an
  image may be others than the images of the corners;
* `Covers.around`: the box around a drawing becomes the box around its image;
* `frame_layout`: the frame around the image of a drawing is the image of its frame.
-/

namespace Tiered

variable {K : Type} [Field K] [LinearOrder K] [FloorRing K] [PlaneFunctions K]

namespace Layout

/-- An arrowhead is moved with its route. -/
theorem arrowhead_shift {points : List (Point K)} (h : points ≠ []) (dx dy : K) :
    arrowhead (points.map (·.shift dx dy)) =
      { arrowhead points with position := (arrowhead points).position.shift dx dy } := by
  obtain ⟨front, tip, rfl⟩ : ∃ front tip, points = front ++ [tip] :=
    ⟨_, _, (List.dropLast_append_getLast h).symm⟩
  have hmoves : (fun p : Point K => p.x != (tip.shift dx dy).x || p.y != (tip.shift dx dy).y) ∘
      (fun p : Point K => p.shift dx dy) = fun p : Point K => p.x != tip.x || p.y != tip.y := by
    funext p
    have hcancel : ∀ x y d : K, (x + d != y + d) = (x != y) := by
      intro x y d
      rw [Bool.eq_iff_iff, bne_iff_ne, bne_iff_ne, ne_eq, add_left_inj]
    exact congrArg₂ _ (hcancel _ _ _) (hcancel _ _ _)
  simp only [arrowhead, List.map_append, List.reverse_append, List.map_cons, List.map_nil,
    List.reverse_singleton, List.singleton_append, ← List.map_reverse, List.find?_map, hmoves]
  cases front.reverse.find? fun p => p.x != tip.x || p.y != tip.y with
  | none => rfl
  | some p => simp only [Option.map_some, Point.shift, add_sub_add_right_eq_sub]

end Layout

/-! ## Extents -/

namespace Symmetry

section Covers

variable {L : Type} [Scalar L] (s : Symmetry) (b : Box L)

/-- Some points have the coordinates of the images of others. -/
structure Covers (ps qs : List (Point L)) : Prop where
  x : ∀ x, (∃ q ∈ qs, q.x = x) ↔ ∃ p ∈ ps, (s.point b p).x = x
  y : ∀ y, (∃ q ∈ qs, q.y = y) ↔ ∃ p ∈ ps, (s.point b p).y = y

variable {s b}

theorem covers_of_perm {ps qs : List (Point L)} (h : qs.Perm (ps.map (s.point b))) :
    s.Covers b ps qs := by
  constructor
  all_goals
    intro z
    simp only [h.mem_iff, List.mem_map, exists_exists_and_eq_and]

theorem covers_nil (s : Symmetry) (b : Box L) : s.Covers b [] [] :=
  covers_of_perm (List.Perm.refl _)

theorem covers_route (s : Symmetry) (b : Box L) (loop : Bool) (ps : List (Point L)) :
    s.Covers b ps (s.route b loop ps) := by
  unfold route
  split
  · exact covers_of_perm (List.reverse_perm _)
  · exact covers_of_perm (List.Perm.refl _)

theorem Covers.append {ps qs ps' qs' : List (Point L)} (h : s.Covers b ps qs)
    (h' : s.Covers b ps' qs') : s.Covers b (ps ++ ps') (qs ++ qs') := by
  constructor
  · intro x
    simp only [List.mem_append, or_and_right, exists_or, h.x, h'.x]
  · intro y
    simp only [List.mem_append, or_and_right, exists_or, h.y, h'.y]

theorem covers_flatMap {A B : Type} {f : A → List (Point L)} {g : B → List (Point L)}
    {k : A → B} (h : ∀ a, s.Covers b (f a) (g (k a))) (as : List A) :
    s.Covers b (as.flatMap f) ((as.map k).flatMap g) := by
  induction as with
  | nil => exact covers_nil s b
  | cons a rest ih =>
    rw [List.flatMap_cons, List.map_cons, List.flatMap_cons]
    exact (h a).append ih

end Covers

variable {s : Symmetry} {b : Box K}

/-- The corners of a flipped rectangle are others, but have the same coordinates. -/
theorem covers_corners (s : Symmetry) (b : Box K) (r : Rect K) :
    s.Covers b r.corners (s.rect b r).corners := by
  cases s with
  | flipY =>
    have hbottom : (Symmetry.flipY.rect b r).bottom = b.minY + b.maxY - r.y := by
      change b.minY + b.maxY - (r.y + r.height) + r.height = b.minY + b.maxY - r.y
      ring
    constructor
    · intro x
      simp [Rect.corners, point, rect, Rect.right]
    · intro y
      simp only [Rect.corners, List.mem_cons, List.not_mem_nil, or_false, exists_eq_or_imp,
        exists_eq_left, hbottom]
      exact or_comm
  | flipX =>
    have hright : (Symmetry.flipX.rect b r).right = b.minX + b.maxX - r.x := by
      change b.minX + b.maxX - (r.x + r.width) + r.width = b.minX + b.maxX - r.x
      ring
    constructor
    · intro x
      simp only [Rect.corners, List.mem_cons, List.not_mem_nil, or_false, exists_eq_or_imp,
        exists_eq_left, hright]
      exact or_comm
    · intro y
      simp [Rect.corners, point, rect, Rect.bottom]
  | transpose => exact covers_of_perm (List.Perm.refl _)

variable [IsStrictOrderedRing K]

/-- The image of the box around some points. -/
def bounds (s : Symmetry) (b e : Box K) : Box K :=
  match s with
  | flipY => ⟨e.minX, b.minY + b.maxY - e.maxY, e.maxX, b.minY + b.maxY - e.minY⟩
  | flipX => ⟨b.minX + b.maxX - e.maxX, e.minY, b.minX + b.maxX - e.minX, e.maxY⟩
  | transpose => ⟨e.minY, e.minX, e.maxY, e.maxX⟩

/-- The box around some points becomes the box around their images. -/
theorem Covers.tight {e : Box K} {ps qs : List (Point K)} (h : s.Covers b ps qs)
    (he : e.Tight ps) : (s.bounds b e).Tight qs := by
  have hleast : ∀ {f : Point K → K} {m : K} (c : K), IsGreatest {x | ∃ p ∈ ps, f p = x} m →
      IsLeast {x | ∃ p ∈ ps, c - f p = x} (c - m) := by
    rintro f m c ⟨⟨p, hp, rfl⟩, hmost⟩
    refine ⟨⟨p, hp, rfl⟩, ?_⟩
    rintro x ⟨q, hq, rfl⟩
    exact sub_le_sub_left (hmost ⟨q, hq, rfl⟩) c
  have hgreatest : ∀ {f : Point K → K} {m : K} (c : K), IsLeast {x | ∃ p ∈ ps, f p = x} m →
      IsGreatest {x | ∃ p ∈ ps, c - f p = x} (c - m) := by
    rintro f m c ⟨⟨p, hp, rfl⟩, hmost⟩
    refine ⟨⟨p, hp, rfl⟩, ?_⟩
    rintro x ⟨q, hq, rfl⟩
    exact sub_le_sub_left (hmost ⟨q, hq, rfl⟩) c
  have hx : {x | ∃ q ∈ qs, q.x = x} = {x | ∃ p ∈ ps, (s.point b p).x = x} := Set.ext h.x
  have hy : {y | ∃ q ∈ qs, q.y = y} = {y | ∃ p ∈ ps, (s.point b p).y = y} := Set.ext h.y
  cases s with
  | flipY =>
    constructor
    · exact hx ▸ he.left
    · exact hy ▸ hleast _ he.bottom
    · exact hx ▸ he.right
    · exact hy ▸ hgreatest _ he.top
  | flipX =>
    constructor
    · exact hx ▸ hleast _ he.right
    · exact hy ▸ he.top
    · exact hx ▸ hgreatest _ he.left
    · exact hy ▸ he.bottom
  | transpose =>
    constructor
    · exact hx ▸ he.top
    · exact hy ▸ he.left
    · exact hx ▸ he.bottom
    · exact hy ▸ he.right

theorem Covers.around {ps qs : List (Point K)} (h : s.Covers b ps qs) (hps : ps ≠ []) :
    Box.around qs = s.bounds b (Box.around ps) := by
  have hqs : qs ≠ [] := by
    rintro rfl
    obtain ⟨p, hp⟩ := List.exists_mem_of_ne_nil ps hps
    obtain ⟨q, hq, -⟩ := (h.x _).mpr ⟨p, hp, rfl⟩
    exact nomatch hq
  exact (Box.tight_around hqs).unique (h.tight (Box.tight_around hps))

omit [IsStrictOrderedRing K] in
theorem covers_extent (s : Symmetry) (l : Layout K) :
    s.Covers l.box (Layout.extent l.nodes l.edges)
      (Layout.extent (s.layout l).nodes (s.layout l).edges) := by
  have hnodes : s.Covers l.box (l.nodes.flatMap (·.rect.corners))
      ((l.nodes.map (s.node l.box)).flatMap (·.rect.corners)) :=
    covers_flatMap (k := s.node l.box) (fun n => covers_corners s l.box n.rect) l.nodes
  have hedge : ∀ e : RoutedEdge K, s.Covers l.box e.extent (s.edge l.box e).extent := by
    intro e
    refine (covers_route s l.box _ e.points).append ?_
    cases hlabel : e.label with
    | none => simpa [edge, hlabel] using covers_nil s l.box
    | some label => simpa [edge, hlabel] using covers_corners s l.box label.rect
  exact hnodes.append (covers_flatMap hedge l.edges)

/-! ## Framing -/

/-- The box of a framed drawing, given its extent. -/
def framed {L : Type} [Scalar L] (margin : L) (e : Box L) : Box L :=
  ⟨0, 0, e.width + 2 * margin, e.height + 2 * margin⟩

section Framing

omit [IsStrictOrderedRing K]

variable (s : Symmetry) (margin : K) (b e : Box K)

theorem point_shift (p : Point K) :
    s.point (framed margin e) (p.shift (margin - e.minX) (margin - e.minY)) =
      (s.point b p).shift (margin - (s.bounds b e).minX) (margin - (s.bounds b e).minY) := by
  cases s with
  | flipY =>
    refine congrArg (Point.mk _) ?_
    simp only [framed, bounds, point, Point.shift, Scalar.zero_eq, Box.height,
      Scalar.two_mul_eq]
    ring
  | flipX =>
    refine congrArg (Point.mk · _) ?_
    simp only [framed, bounds, point, Point.shift, Scalar.zero_eq, Box.width,
      Scalar.two_mul_eq]
    ring
  | transpose => rfl

theorem rect_shift (r : Rect K) :
    s.rect (framed margin e) (r.shift (margin - e.minX) (margin - e.minY)) =
      (s.rect b r).shift (margin - (s.bounds b e).minX) (margin - (s.bounds b e).minY) := by
  cases s with
  | flipY =>
    refine congrArg (Rect.mk _ · _ _) ?_
    simp only [framed, bounds, rect, Rect.shift, Rect.bottom, Scalar.zero_eq, Box.height,
      Scalar.two_mul_eq]
    ring
  | flipX =>
    refine congrArg (Rect.mk · _ _ _) ?_
    simp only [framed, bounds, rect, Rect.shift, Rect.right, Scalar.zero_eq, Box.width,
      Scalar.two_mul_eq]
    ring
  | transpose => rfl

theorem framed_bounds : framed margin (s.bounds b e) = s.box (framed margin e) := by
  cases s with
  | flipY =>
    simp only [framed, bounds, box, Box.width, Box.height, sub_sub_sub_cancel_left]
  | flipX =>
    simp only [framed, bounds, box, Box.width, Box.height, sub_sub_sub_cancel_left]
  | transpose => rfl

theorem node_shift (n : PlacedNode K) :
    s.node (framed margin e) (n.shift (margin - e.minX) (margin - e.minY)) =
      (s.node b n).shift (margin - (s.bounds b e).minX) (margin - (s.bounds b e).minY) :=
  congrArg (fun rect => { n with rect }) (s.rect_shift margin b e n.rect)

theorem route_shift (loop : Bool) (points : List (Point K)) :
    s.route (framed margin e) loop (points.map (·.shift (margin - e.minX) (margin - e.minY))) =
      (s.route b loop points).map
        (·.shift (margin - (s.bounds b e).minX) (margin - (s.bounds b e).minY)) := by
  have hpoints : (points.map (·.shift (margin - e.minX) (margin - e.minY))).map
      (s.point (framed margin e)) = (points.map (s.point b)).map
        (·.shift (margin - (s.bounds b e).minX) (margin - (s.bounds b e).minY)) := by
    rw [List.map_map, List.map_map]
    exact List.map_congr_left fun p _ => s.point_shift margin b e p
  unfold route
  split
  · rw [hpoints, List.map_reverse]
  · exact hpoints

theorem edge_shift {x : RoutedEdge K} (hx : x.points ≠ []) :
    s.edge (framed margin e) (x.shift (margin - e.minX) (margin - e.minY)) =
      (s.edge b x).shift (margin - (s.bounds b e).minX) (margin - (s.bounds b e).minY) := by
  have hroute : s.route b (x.source == x.target) x.points ≠ [] := by
    unfold route
    split
    · simpa using hx
    · simpa using hx
  have hlabel : ∀ label : PlacedLabel K,
      s.rect (framed margin e) (label.rect.shift (margin - e.minX) (margin - e.minY)) =
        (s.rect b label.rect).shift (margin - (s.bounds b e).minX)
          (margin - (s.bounds b e).minY) := fun label => s.rect_shift margin b e label.rect
  simp only [edge, RoutedEdge.shift, s.route_shift margin b e, Layout.arrowhead_shift hroute,
    Option.map_map, Function.comp_def, hlabel]

end Framing

/-- The frame around the image of a drawing is the image of the frame. -/
theorem frame_layout (s : Symmetry) (margin : K) {l : Layout K}
    (hextent : Layout.extent l.nodes l.edges ≠ []) (hpoints : ∀ e ∈ l.edges, e.points ≠ []) :
    Layout.frame margin (s.layout l) = s.layout (Layout.frame margin l) := by
  have haround : Box.around (Layout.extent (l.nodes.map (s.node l.box))
      (l.edges.map (s.edge l.box))) =
      s.bounds l.box (Box.around (Layout.extent l.nodes l.edges)) :=
    (s.covers_extent l).around hextent
  simp only [Layout.frame, layout, haround, List.map_map]
  generalize Box.around (Layout.extent l.nodes l.edges) = e
  have hnodes : l.nodes.map ((·.shift (margin - (s.bounds l.box e).minX)
      (margin - (s.bounds l.box e).minY)) ∘ s.node l.box) =
      l.nodes.map (s.node (framed margin e) ∘ (·.shift (margin - e.minX) (margin - e.minY))) :=
    List.map_congr_left fun n _ => (s.node_shift margin l.box e n).symm
  have hedges : l.edges.map ((·.shift (margin - (s.bounds l.box e).minX)
      (margin - (s.bounds l.box e).minY)) ∘ s.edge l.box) =
      l.edges.map (s.edge (framed margin e) ∘ (·.shift (margin - e.minX) (margin - e.minY))) :=
    List.map_congr_left fun x hx => (s.edge_shift margin l.box e (hpoints x hx)).symm
  rw [hnodes, hedges]
  change (⟨_, _, framed margin (s.bounds l.box e), _, _, _⟩ : Layout K) =
    ⟨_, _, s.box (framed margin e), _, _, _⟩
  rw [s.framed_bounds margin l.box e]
  rfl

end Symmetry

end Tiered
