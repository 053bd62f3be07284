import Mathlib.Order.Bounds.Basic
import Tiered.Proofs.Layout.Routes

/-!
# The frame is tight

* `tight_around`: the box around some points is the least that holds them, so that it depends on
  where they are and not on how they are listed (`Box.Tight.unique`);
* `framed_frame`, `keeps_frame`: a drawing that is framed has its margin on all four sides, and is
  the drawing that it was before, moved;
* `layout_framed`: the drawing of a layout is so framed, and every edge in it ends in its arrowhead.
-/

namespace Tiered

variable {K : Type} [Field K] [LinearOrder K] [FloorRing K] [PlaneFunctions K]

/-! ## Boxes around points -/

namespace Box

/-- Each side of the box is as far out as the outermost of the points. -/
structure Tight (b : Box K) (ps : List (Point K)) : Prop where
  left : IsLeast {x | ∃ p ∈ ps, p.x = x} b.minX
  top : IsLeast {y | ∃ p ∈ ps, p.y = y} b.minY
  right : IsGreatest {x | ∃ p ∈ ps, p.x = x} b.maxX
  bottom : IsGreatest {y | ∃ p ∈ ps, p.y = y} b.maxY

omit [Field K] [FloorRing K] [PlaneFunctions K] in
/-- There is one tight box. -/
theorem Tight.unique {b c : Box K} {ps : List (Point K)} (hb : b.Tight ps) (hc : c.Tight ps) :
    b = c := by
  obtain ⟨left, top, right, bottom⟩ := b
  cases hb.left.unique hc.left
  cases hb.top.unique hc.top
  cases hb.right.unique hc.right
  cases hb.bottom.unique hc.bottom
  rfl

theorem tight_ofPoint (p : Point K) : (ofPoint p).Tight [p] := by
  have hx : {x | ∃ q ∈ [p], q.x = x} = {p.x} := by
    ext x
    simp [eq_comm]
  have hy : {y | ∃ q ∈ [p], q.y = y} = {p.y} := by
    ext y
    simp [eq_comm]
  constructor
  · exact hx ▸ isLeast_singleton
  · exact hy ▸ isLeast_singleton
  · exact hx ▸ isGreatest_singleton
  · exact hy ▸ isGreatest_singleton

/-- A box that is grown for one more point stays tight. -/
theorem Tight.cover {b : Box K} {ps : List (Point K)} (h : b.Tight ps) (p : Point K) :
    (b.cover p).Tight (ps ++ [p]) := by
  have hset : ∀ f : Point K → K,
      {x | ∃ q ∈ ps ++ [p], f q = x} = insert (f p) {x | ∃ q ∈ ps, f q = x} := by
    intro f
    ext x
    simp [or_and_right, exists_or, or_comm, eq_comm]
  constructor
  · rw [hset Point.x]
    exact (min_comm p.x b.minX).subst (h.left.insert p.x)
  · rw [hset Point.y]
    exact (min_comm p.y b.minY).subst (h.top.insert p.y)
  · rw [hset Point.x]
    exact (max_comm p.x b.maxX).subst (h.right.insert p.x)
  · rw [hset Point.y]
    exact (max_comm p.y b.maxY).subst (h.bottom.insert p.y)

theorem Tight.foldl_cover {b : Box K} {ps : List (Point K)} (h : b.Tight ps)
    (more : List (Point K)) : (more.foldl Box.cover b).Tight (ps ++ more) := by
  induction more generalizing b ps with
  | nil => rwa [List.append_nil]
  | cons p rest ih =>
    rw [List.foldl_cons, ← List.singleton_append, ← List.append_assoc]
    exact ih (h.cover p)

theorem tight_around {ps : List (Point K)} (h : ps ≠ []) : (around ps).Tight ps := by
  cases ps with
  | nil => exact absurd rfl h
  | cons p rest => exact (tight_ofPoint p).foldl_cover rest

end Box

namespace Layout

/-! ## What is drawn -/

section Shown

variable {L : Type} [Scalar L]

/-- A point is drawn: as a corner of a node, on the way of an edge, or as a corner of a label. -/
inductive Shows (l : Layout L) (p : Point L) : Prop
  | node {n : PlacedNode L} (hn : n ∈ l.nodes) (hp : p ∈ n.rect.corners)
  | route {e : RoutedEdge L} (he : e ∈ l.edges) (hp : p ∈ e.points)
  | label {e : RoutedEdge L} {label : PlacedLabel L} (he : e ∈ l.edges)
      (hlabel : e.label = some label) (hp : p ∈ label.rect.corners)

/-- The frame is put around all that is drawn. -/
theorem shows_iff {l : Layout L} {p : Point L} : l.Shows p ↔ p ∈ extent l.nodes l.edges := by
  simp only [extent, RoutedEdge.extent, List.mem_append, List.mem_flatMap]
  constructor
  · rintro (⟨hn, hp⟩ | ⟨he, hp⟩ | ⟨he, hlabel, hp⟩)
    · exact .inl ⟨_, hn, hp⟩
    · exact .inr ⟨_, he, .inl hp⟩
    · exact .inr ⟨_, he, .inr (by rwa [hlabel])⟩
  · rintro (⟨n, hn, hp⟩ | ⟨e, he, hp | hp⟩)
    · exact .node hn hp
    · exact .route he hp
    · cases hlabel : e.label with
      | none => simp [hlabel] at hp
      | some label => exact .label he hlabel (by rwa [hlabel] at hp)

end Shown

/-- A drawing begins at the origin, and its margin is free on all four sides and no wider than it
has to be. -/
structure Framed (margin : K) (l : Layout K) : Prop where
  origin : l.box.minX = 0 ∧ l.box.minY = 0
  inside : ∀ p, l.Shows p → margin ≤ p.x ∧ p.x ≤ l.box.maxX - margin ∧
    margin ≤ p.y ∧ p.y ≤ l.box.maxY - margin
  left : ∃ p, l.Shows p ∧ p.x = margin
  right : ∃ p, l.Shows p ∧ p.x = l.box.maxX - margin
  top : ∃ p, l.Shows p ∧ p.y = margin
  bottom : ∃ p, l.Shows p ∧ p.y = l.box.maxY - margin

/-- All places of a drawing in the order of its nodes and edges, tips of arrowheads included. -/
def landmarks (l : Layout K) : List (Point K) :=
  l.nodes.flatMap (·.rect.corners) ++
    l.edges.flatMap fun e => e.points ++ e.arrowhead.position ::
      (e.label.toList.flatMap (·.rect.corners))

/-- Two drawings show the same things, in the same sizes and at the same distances from one
another. -/
structure Keeps (l k : Layout K) : Prop where
  ids : k.nodes.map (·.id) = l.nodes.map (·.id)
  edges : k.edges.map (·.edge) = l.edges.map (·.edge)
  nodeSizes : k.nodes.map (fun n => (n.rect.width, n.rect.height)) =
    l.nodes.map fun n => (n.rect.width, n.rect.height)
  labelSizes : k.edges.map (fun e => e.label.map fun b => (b.lines, b.rect.width, b.rect.height)) =
    l.edges.map fun e => e.label.map fun b => (b.lines, b.rect.width, b.rect.height)
  count : k.landmarks.length = l.landmarks.length
  distance : ∀ i j (hi : i < k.landmarks.length) (hj : j < k.landmarks.length)
    (hi' : i < l.landmarks.length) (hj' : j < l.landmarks.length),
    k.landmarks[i].x - k.landmarks[j].x = l.landmarks[i].x - l.landmarks[j].x ∧
      k.landmarks[i].y - k.landmarks[j].y = l.landmarks[i].y - l.landmarks[j].y

end Layout

/-! ## Moving a drawing -/

section Moved

variable (dx dy : K)

/-- The corners of a rectangle move with it. -/
theorem Rect.corners_shift (r : Rect K) :
    (r.shift dx dy).corners = r.corners.map (·.shift dx dy) := by
  have hright : (r.shift dx dy).right = r.right + dx := add_right_comm _ _ _
  have hbottom : (r.shift dx dy).bottom = r.bottom + dy := add_right_comm _ _ _
  simp only [corners, hright, hbottom]
  rfl

theorem RoutedEdge.extent_shift (e : RoutedEdge K) :
    (e.shift dx dy).extent = e.extent.map (·.shift dx dy) := by
  unfold extent
  rw [List.map_append]
  cases hlabel : e.label with
  | none => simp [shift, hlabel]
  | some label => simp [shift, hlabel, Rect.corners_shift]

namespace Layout

theorem extent_shift (nodes : List (PlacedNode K)) (edges : List (RoutedEdge K)) :
    extent (nodes.map (·.shift dx dy)) (edges.map (·.shift dx dy)) =
      (extent nodes edges).map (·.shift dx dy) := by
  simp only [extent, List.map_append, List.map_flatMap, List.flatMap_map, PlacedNode.shift,
    Rect.corners_shift, RoutedEdge.extent_shift]

/-- A drawing moves as a whole. -/
def shift (l : Layout K) : Layout K :=
  { l with nodes := l.nodes.map (·.shift dx dy), edges := l.edges.map (·.shift dx dy) }

theorem landmarks_shift (l : Layout K) :
    (l.shift dx dy).landmarks = l.landmarks.map (·.shift dx dy) := by
  have hedge : ∀ e : RoutedEdge K, (e.shift dx dy).label.toList.flatMap (·.rect.corners) =
      (e.label.toList.flatMap (·.rect.corners)).map (·.shift dx dy) := by
    intro e
    cases hlabel : e.label with
    | none => simp [RoutedEdge.shift, hlabel]
    | some label => simp [RoutedEdge.shift, hlabel, Rect.corners_shift]
  simp only [landmarks, shift, List.map_append, List.map_flatMap, List.flatMap_map, hedge,
    List.map_cons, PlacedNode.shift, Rect.corners_shift]
  rfl

theorem keeps_shift (l : Layout K) : l.Keeps (l.shift dx dy) where
  ids := List.map_map
  edges := List.map_map
  nodeSizes := List.map_map
  labelSizes := by
    simp only [shift, List.map_map]
    refine List.map_congr_left fun e _ => ?_
    exact Option.map_map _ _ _
  count := by rw [landmarks_shift, List.length_map]
  distance := by
    intro i j hi hj hi' hj'
    simp only [landmarks_shift, List.getElem_map]
    exact ⟨add_sub_add_right_eq_sub _ _ _, add_sub_add_right_eq_sub _ _ _⟩

end Layout
end Moved

/-! ## Framing a drawing -/

namespace Layout

section Framing

variable (margin : K) {l : Layout K}

/-- The frame moves all points by one distance. -/
theorem shows_frame {p : Point K} : (frame margin l).Shows p ↔
    ∃ q, l.Shows q ∧ p.x = q.x + (margin - (Box.around (extent l.nodes l.edges)).minX) ∧
      p.y = q.y + (margin - (Box.around (extent l.nodes l.edges)).minY) := by
  simp only [shows_iff, frame, extent_shift, List.mem_map]
  constructor
  · rintro ⟨q, hq, rfl⟩
    exact ⟨q, hq, rfl, rfl⟩
  · rintro ⟨q, hq, hx, hy⟩
    exact ⟨q, hq, congrArg₂ Point.mk hx.symm hy.symm⟩

variable [IsStrictOrderedRing K]

theorem framed_frame (h : extent l.nodes l.edges ≠ []) : (frame margin l).Framed margin := by
  have htight := Box.tight_around h
  have hmaxX : (frame margin l).box.maxX = (Box.around (extent l.nodes l.edges)).maxX -
      (Box.around (extent l.nodes l.edges)).minX + (2 : ℕ) * margin := rfl
  have hmaxY : (frame margin l).box.maxY = (Box.around (extent l.nodes l.edges)).maxY -
      (Box.around (extent l.nodes l.edges)).minY + (2 : ℕ) * margin := rfl
  have hshows := fun p => shows_frame margin (l := l) (p := p)
  rw [Nat.cast_ofNat] at hmaxX hmaxY
  generalize Box.around (extent l.nodes l.edges) = b at *
  have hmoved : ∀ q ∈ extent l.nodes l.edges, ∃ p, (frame margin l).Shows p ∧
      p.x = q.x + (margin - b.minX) ∧ p.y = q.y + (margin - b.minY) :=
    fun q hq => ⟨q.shift (margin - b.minX) (margin - b.minY),
      (hshows _).mpr ⟨q, shows_iff.mpr hq, rfl, rfl⟩, rfl, rfl⟩
  obtain ⟨⟨ql, hql, hleft⟩, hleast⟩ := htight.left
  obtain ⟨⟨qt, hqt, htop⟩, htopmost⟩ := htight.top
  obtain ⟨⟨qr, hqr, hright⟩, hgreatest⟩ := htight.right
  obtain ⟨⟨qb, hqb, hbottom⟩, hlowest⟩ := htight.bottom
  refine ⟨⟨Nat.cast_zero, Nat.cast_zero⟩, ?_, ?_, ?_, ?_, ?_⟩
  · intro p hp
    obtain ⟨q, hq, hx, hy⟩ := (hshows p).mp hp
    rw [shows_iff] at hq
    have h1 := hleast ⟨q, hq, rfl⟩
    have h2 := htopmost ⟨q, hq, rfl⟩
    have h3 := hgreatest ⟨q, hq, rfl⟩
    have h4 := hlowest ⟨q, hq, rfl⟩
    rw [hmaxX, hmaxY]
    exact ⟨by linarith, by linarith, by linarith, by linarith⟩
  · obtain ⟨p, hp, hx, -⟩ := hmoved ql hql
    exact ⟨p, hp, by linarith⟩
  · obtain ⟨p, hp, hx, -⟩ := hmoved qr hqr
    exact ⟨p, hp, by linarith⟩
  · obtain ⟨p, hp, -, hy⟩ := hmoved qt hqt
    exact ⟨p, hp, by linarith⟩
  · obtain ⟨p, hp, -, hy⟩ := hmoved qb hqb
    exact ⟨p, hp, by linarith⟩

end Framing

theorem keeps_frame (margin : K) (l : Layout K) : l.Keeps (frame margin l) := by
  have h := l.keeps_shift (margin - (Box.around (extent l.nodes l.edges)).minX)
    (margin - (Box.around (extent l.nodes l.edges)).minY)
  exact ⟨h.ids, h.edges, h.nodeSizes, h.labelSizes, h.count, h.distance⟩

/-! ## Routes have points -/

section Routes

open Layering (Arc Layered)

variable {L : Type} [Scalar L]

theorem length_clipLast (o : Outline L) (points : List (Point L)) :
    (clipLast o points).length = points.length := by
  fun_induction clipLast o points with
  | case1 p q => rfl
  | case2 p rest _ ih => rw [List.length_cons, ih, List.length_cons]
  | case3 => rfl

theorem length_clipEnds (source target : Outline L) (points : List (Point L)) :
    (clipEnds source target points).length = points.length := by
  fun_cases clipEnds source target points with
  | case1 first second rest => exact length_clipLast _ _
  | case2 => rfl

theorem centreLine_ne_nil {points : List (L × L)} (h : points ≠ []) (bend : L) :
    centreLine points bend ≠ [] := by
  unfold centreLine
  split
  · split <;> exact List.cons_ne_nil _ _
  · exact h

theorem selfLoop_ne_nil (rect : Rect L) (d : Direction) (nth : Nat) :
    selfLoop rect d nth ≠ [] := by
  unfold selfLoop
  split <;> exact List.cons_ne_nil _ _

end Routes

section Arranged

open Layering (Arc Layered)

variable {g : Graph} {settings : Settings K} {sizes : List (K × K)} {arcs : List Arc}

theorem extent_unframed_ne_nil (hnodes : g.nodes ≠ []) (hlength : sizes.length = g.nodes.length) :
    extent (unframed g settings sizes arcs).nodes (unframed g settings sizes arcs).edges ≠ [] := by
  obtain ⟨id, rest, hids⟩ := List.exists_cons_of_ne_nil hnodes
  obtain ⟨size, sizes, rfl⟩ := List.exists_cons_of_length_pos (l := sizes)
    (by rw [hlength]; exact List.length_pos_iff.mpr hnodes)
  simp [extent, unframed, hids, Rect.corners]

theorem arrowhead_routedEdges {e : RoutedEdge K} (he : e ∈ routedEdges g settings sizes arcs) :
    e.arrowhead = arrowhead e.points := by
  obtain ⟨plan, -, rfl⟩ := List.mem_map.mp he
  rfl

/-- Every route has points, whatever the separations and the sizes are. -/
theorem points_ne_nil (harcs : List.Forall₂ (fun e arc => arcOf g e = .ok arc) g.edges arcs)
    {e : RoutedEdge K} (he : e ∈ routedEdges g settings sizes arcs) : e.points ≠ [] := by
  obtain ⟨plan, hplan, rfl⟩ := List.mem_map.mp he
  obtain ⟨i, hi, rfl⟩ := List.mem_iff_getElem.mp hplan
  obtain ⟨-, -, -, hd⟩ := lt_of_lt_plans harcs.length_eq.symm hi
  have hbecomes := becomes_plan harcs hi hd
  unfold routeEdge
  cases hdown : (downArcs g arcs)[i] with
  | none =>
    rw [hdown] at hbecomes
    have hchain : (plans g settings arcs)[i].chain = none := hbecomes
    simp only [hchain]
    exact selfLoop_ne_nil _ _ _
  | some d =>
    rw [hdown] at hbecomes
    obtain ⟨chain, hchain, hpath⟩ := hbecomes
    obtain ⟨mids, rfl, -⟩ := hpath.exists_eq
    simp only [hchain]
    rw [← List.length_pos_iff, length_clipEnds, List.length_map, List.length_pos_iff]
    have hline : centreLine ((d.1 :: (mids ++ [d.2])).map (centreOf g settings sizes arcs))
        (plans g settings arcs)[i].bend ≠ [] := centreLine_ne_nil (List.cons_ne_nil _ _) _
    split
    · simpa using hline
    · exact hline

end Arranged
end Layout

/-- **The frame is tight.** The drawing of a graph with nodes begins at the origin and keeps its
margin on all four sides, where some of it reaches as far as the margin. The frame only moves what
was routed, as a whole, and arrowheads stay at the ends of their edges. -/
theorem Graph.layout_framed [IsStrictOrderedRing K] {g : Graph} {settings : Settings K}
    {sizer : Sizer K} {l : Layout K} (hnodes : g.nodes ≠ [])
    (h : g.layout settings sizer = .ok l) :
    l.Framed settings.margin ∧
      (∀ e ∈ l.edges, e.points.getLast? = some e.arrowhead.position) ∧
      ∃ sizes arcs,
        List.Forall₂ (fun id size => Layout.sizeOf g sizer id = .ok size) g.nodes sizes ∧
        List.Forall₂ (fun e arc => Layout.arcOf g e = .ok arc) g.edges arcs ∧
        (Layout.unframed g settings sizes arcs).Keeps l := by
  obtain ⟨-, ⟨hempty, -⟩ | ⟨sizes, arcs, hsizes, harcs, rfl⟩⟩ := Graph.layout_eq_ok h
  · exact absurd hempty hnodes
  · rw [Layout.arranged_eq]
    refine ⟨Layout.framed_frame _ ?_, ?_, sizes, arcs, hsizes, harcs, Layout.keeps_frame _ _⟩
    · exact Layout.extent_unframed_ne_nil hnodes hsizes.length_eq.symm
    · intro e he
      obtain ⟨r, hr, rfl⟩ := List.mem_map.mp he
      exact Layout.getLast?_shift (Layout.arrowhead_routedEdges hr)
        (Layout.points_ne_nil harcs hr) _ _

/-- A loop beside an edge with a label. -/
def labelledEdge : Graph :=
  { directed := true
    nodes := ["a", "b"]
    edges := [⟨"a", "b", .ofList [("label", "yes\\nno")]⟩, ⟨"b", "b", ∅⟩] }

theorem Graph.layout_framed_labelledEdge :
    labelledEdge.nodes ≠ [] ∧
      ∃ l : Layout ℚ, labelledEdge.layout .standard (fun _ _ => (40, 20)) = .ok l ∧
        l.Framed 20 ∧ (∀ e ∈ l.edges, e.points.getLast? = some e.arrowhead.position) := by
  have hnodes : labelledEdge.nodes ≠ [] := List.cons_ne_nil _ _
  have hlayout : labelledEdge.layout .standard (fun _ _ => (40, 20)) = .ok
      (Layout.arranged labelledEdge (.standard : Settings ℚ) [(40, 20), (40, 20)]
        [(0, 1), (1, 1)]) := rfl
  obtain ⟨hframed, hends, -⟩ := Graph.layout_framed hnodes hlayout
  exact ⟨hnodes, _, hlayout, hframed, hends⟩

end Tiered
