import Tiered.Proofs.Layout.Bands

/-!
# Room in a rank

Nodes and bends of one rank have room to both sides.

* `Layout.Lengths.rooms_apart`: whatever stands in one rank keeps its room there, bends as well as
  nodes;
* `edgeSep_le`, `not_surrounds`: so bends keep the gap between edges, and none is inside a node.
-/

namespace Tiered

variable {K : Type} [Field K] [LinearOrder K] [FloorRing K] [PlaneFunctions K]

/-- The point is inside the rectangle, and not on its sides. -/
def Rect.Surrounds (r : Rect K) (p : Point K) : Prop :=
  r.x < p.x ∧ p.x < r.right ∧ r.y < p.y ∧ p.y < r.bottom

namespace Direction

/-- Where a point is along the layers. -/
def along {K : Type} (d : Direction) (p : Point K) : K := if d.isHorizontal then p.y else p.x

/-- How far a rectangle reaches along the layers. -/
def breadth {K : Type} (d : Direction) (r : Rect K) : K :=
  if d.isHorizontal then r.height else r.width

variable (d : Direction) (p : Point K) (dx dy : K)

theorem along_onScreen (along across : K) : d.along (Layout.onScreen d along across) = along := by
  cases d <;> rfl

theorem along_shift : d.along (p.shift dx dy) = d.along p + d.along ⟨dx, dy⟩ := by
  cases d <;> rfl

theorem across_shift : d.across (p.shift dx dy) = d.across p + d.across ⟨dx, dy⟩ := by
  cases d with
  | topBottom | leftRight => rfl
  | bottomTop => exact neg_add _ _
  | rightLeft => exact neg_add _ _

end Direction

section Inside

variable {r : Rect K} {p : Point K}

/-- Inside a rectangle, the centre is less than half of it away on both axes. -/
theorem Rect.Surrounds.within [IsStrictOrderedRing K] (h : r.Surrounds p) (d : Direction) :
    |d.along p - d.along r.center| < half (d.breadth r) ∧
      |d.across p - d.across r.center| < half (d.depth r) := by
  obtain ⟨hleft, hright, htop, hbottom⟩ := h
  rw [Rect.right_eq] at hright
  rw [Rect.bottom_eq] at hbottom
  have hx : |p.x - r.center.x| < half r.width := by
    rw [abs_sub_lt_iff, Rect.center_x] at *
    have := half_add_half r.width
    constructor <;> linarith
  have hy : |p.y - r.center.y| < half r.height := by
    rw [abs_sub_lt_iff, Rect.center_y] at *
    have := half_add_half r.height
    constructor <;> linarith
  cases d with
  | topBottom => exact ⟨hx, hy⟩
  | leftRight => exact ⟨hy, hx⟩
  | bottomTop =>
    refine ⟨hx, ?_⟩
    change |-p.y - -r.center.y| < half r.height
    rwa [neg_sub_neg, abs_sub_comm]
  | rightLeft =>
    refine ⟨hy, ?_⟩
    change |-p.x - -r.center.x| < half r.width
    rwa [neg_sub_neg, abs_sub_comm]

end Inside

namespace Layout

open Layering (Arc Layered)

variable {g : Graph} {settings : Settings K} {sizes : List (K × K)} {arcs : List Arc}

/-- Where a node or a bend is drawn, before the drawing is framed. -/
def spot (g : Graph) (settings : Settings K) (sizes : List (K × K)) (arcs : List Arc) (v : Nat) :
    Point K :=
  onScreen settings.direction (alongOf g settings sizes arcs v) (acrossOf g settings sizes arcs v)

theorem along_spot (v : Nat) : settings.direction.along (spot g settings sizes arcs v) =
    alongOf g settings sizes arcs v := Direction.along_onScreen _ _ _

theorem across_spot (v : Nat) : settings.direction.across (spot g settings sizes arcs v) =
    acrossOf g settings sizes arcs v := Direction.across_onScreen _ _ _

theorem map_centreOf (vs : List Nat) :
    (vs.map (centreOf g settings sizes arcs)).map (fun p => onScreen settings.direction p.1 p.2) =
      vs.map (spot g settings sizes arcs) := by
  rw [List.map_map]
  apply List.map_congr_left
  intro v _
  rw [Function.comp_apply, centreOf, spot]

theorem Stands.center_eq_spot {v : Nat} {n : PlacedNode K}
    (hn : Stands g settings sizes arcs v n) : n.rect.center = spot g settings sizes arcs v := by
  rw [hn.center, centreOf, spot]

theorem Stands.rank {v : Nat} {n : PlacedNode K} (hn : Stands g settings sizes arcs v n) :
    n.rank = (layeredGraph g arcs).rankOf v := by
  obtain ⟨hs, id, hg, rfl⟩ := exists_placedNode_eq hn.node
  exact (rankOf_layeredGraph hg).symm

theorem Stands.breadth {v : Nat} {n : PlacedNode K} (hn : Stands g settings sizes arcs v n) :
    settings.direction.breadth n.rect = (breadths settings sizes).getD v 0 := by
  obtain ⟨hs, id, hg, rfl⟩ := exists_placedNode_eq hn.node
  rw [getD_breadths hs]
  rfl

/-! ## Room in a rank -/

section Rooms

/-- The room to both sides of what stands in a rank. -/
def room (g : Graph) (settings : Settings K) (sizes : List (K × K)) (arcs : List Arc) (v : Nat) :
    K :=
  roomOf (layeredGraph g arcs) (breadths settings sizes) ⟨settings.nodeSep, settings.edgeSep⟩ v

theorem isVirtual_of_le (arcs : List Arc) {v : Nat} (hv : g.nodes.length ≤ v) :
    (layeredGraph g arcs).isVirtual v = true := by
  rw [layeredGraph, Layered.isVirtual, Layered.real_ofEdges, size_nodeRanks]
  exact decide_eq_true hv

variable [IsStrictOrderedRing K]

namespace Lengths

variable (h : Lengths settings sizes)

include h

omit [FloorRing K] [PlaneFunctions K] [IsStrictOrderedRing K] in
theorem height_nonneg (v : Nat) : 0 ≤ (heights settings sizes).getD v 0 := by
  by_cases hv : v < sizes.length
  · obtain ⟨hwidth, hheight⟩ := h.sizes _ (List.getElem_mem hv)
    rw [getD_heights hv]
    split
    · exact hwidth
    · exact hheight
  · rw [getD_of_size_le (by simpa [heights] using hv)]

/-- What stands in one rank is apart by the room of both. -/
theorem rooms_apart {v w : Nat} (hv : v < (layeredGraph g arcs).size)
    (hw : w < (layeredGraph g arcs).size) (hvw : v ≠ w)
    (hrank : (layeredGraph g arcs).rankOf v = (layeredGraph g arcs).rankOf w) :
    room g settings sizes arcs v + room g settings sizes arcs w ≤
      |alongOf g settings sizes arcs v - alongOf g settings sizes arcs w| := by
  have hplace := Layered.places_ne (complete_finalLayers g arcs) hv hw hvw hrank
  unfold room
  rcases Nat.lt_or_gt_of_ne hplace with hlt | hgt
  · have hspaced := h.alongOf_add_le hv hw hrank hlt
    rw [abs_sub_comm]
    exact le_trans (by linarith) (le_abs_self _)
  · have hspaced := h.alongOf_add_le hw hv hrank.symm hgt
    exact le_trans (by linarith) (le_abs_self _)

omit [FloorRing K] [PlaneFunctions K] in
/-- A node has room for itself. -/
theorem half_breadth_le (g : Graph) (arcs : List Arc) (v : Nat) :
    half ((breadths settings sizes).getD v 0) ≤ room g settings sizes arcs v := by
  apply half_le_half
  have hshare : 0 ≤ Spacing.share ⟨settings.nodeSep, settings.edgeSep⟩
      ((layeredGraph g arcs).isVirtual v) := by
    unfold Spacing.share
    split
    · exact h.edgeSep
    · exact h.nodeSep
  exact le_add_of_nonneg_right hshare

omit [FloorRing K] [PlaneFunctions K] in
/-- A bend has room for its share of the gap. -/
theorem half_edgeSep_le (arcs : List Arc) {v : Nat} (hv : g.nodes.length ≤ v) :
    half settings.edgeSep ≤ room g settings sizes arcs v := by
  rw [room, roomOf, isVirtual_of_le arcs hv]
  exact half_le_half (le_add_of_nonneg_left (h.breadth_nonneg v))

/-- Two bends in one rank keep the gap between edges. -/
theorem edgeSep_le {v w : Nat} (hv : v < (layeredGraph g arcs).size)
    (hw : w < (layeredGraph g arcs).size) (hbendv : g.nodes.length ≤ v)
    (hbendw : g.nodes.length ≤ w) (hvw : v ≠ w)
    (hrank : (layeredGraph g arcs).rankOf v = (layeredGraph g arcs).rankOf w) :
    settings.edgeSep ≤ |alongOf g settings sizes arcs v - alongOf g settings sizes arcs w| := by
  have hroomv := h.half_edgeSep_le arcs hbendv
  have hroomw := h.half_edgeSep_le arcs hbendw
  have hsep := half_add_half settings.edgeSep
  have hrooms := h.rooms_apart hv hw hvw hrank
  linarith

/-- A bend is beside the nodes of its rank, and above or below all others. -/
theorem not_surrounds {v w : Nat} {n : PlacedNode K} (hn : Stands g settings sizes arcs w n)
    (hv : v < (layeredGraph g arcs).size) (hbend : g.nodes.length ≤ v) (dx dy : K) :
    ¬ (n.shift dx dy).rect.Surrounds ((spot g settings sizes arcs v).shift dx dy) := by
  intro hinside
  obtain ⟨halong, hacross⟩ := hinside.within settings.direction
  have hcenter : (n.shift dx dy).rect.center = (spot g settings sizes arcs w).shift dx dy := by
    rw [← hn.center_eq_spot]
    exact Rect.center_shift _ _ _
  have hbreadth : settings.direction.breadth (n.shift dx dy).rect =
      (breadths settings sizes).getD w 0 := hn.breadth
  have hdepth : settings.direction.depth (n.shift dx dy).rect =
      (heights settings sizes).getD w 0 := hn.depth
  obtain ⟨-, -, hg, -⟩ := exists_placedNode_eq hn.node
  have hw := lt_size_layeredGraph arcs hg
  by_cases hrank : (layeredGraph g arcs).rankOf v = (layeredGraph g arcs).rankOf w
  · rw [hcenter, Direction.along_shift, Direction.along_shift, add_sub_add_right_eq_sub, along_spot,
      along_spot, hbreadth] at halong
    have hrooms := h.rooms_apart hv hw (by omega) hrank
    have hroomv := half_nonneg h.edgeSep
    have hshare := h.half_edgeSep_le arcs hbend
    have hroomw := h.half_breadth_le g arcs w
    exact absurd halong (not_lt.mpr (by linarith))
  · rw [hcenter, Direction.across_shift, Direction.across_shift, add_sub_add_right_eq_sub,
      across_spot, across_spot, hdepth] at hacross
    have hheights := half_heights_le sizes h.rankSep hv hw hrank
    rw [half_add] at hheights
    have hheight := half_nonneg (h.height_nonneg v)
    exact absurd hacross (not_lt.mpr (by linarith))

end Lengths

end Rooms

end Layout
end Tiered
