import Tiered.Proofs.Layout.Placement
import Tiered.Proofs.Layout.Stages

/-!
# Nodes do not overlap

In exact arithmetic the rectangles of any two nodes of a layout keep the gaps that were asked for:
along the layer within a rank, in the order of their places, and from rank to rank otherwise.
-/

namespace Tiered

section Extents

variable {K : Type} [Scalar K]

/-- Where a rectangle begins and ends along the layers. -/
def Direction.stretch (d : Direction) (r : Rect K) : K × K :=
  if d.isHorizontal then (r.y, r.bottom) else (r.x, r.right)

/-- Where a rectangle begins and ends from rank to rank, the way that ranks run. -/
def Direction.band (d : Direction) (r : Rect K) : K × K :=
  match d with
  | .topBottom => (r.y, r.bottom)
  | .bottomTop => (-r.bottom, -r.y)
  | .leftRight => (r.x, r.right)
  | .rightLeft => (-r.right, -r.x)

/-- Two nodes keep their distance. Of nodes with the same rank, the one with the smaller place
comes first, and of others the one with the smaller rank. -/
structure Separated (settings : Settings K) (a b : PlacedNode K) : Prop where
  disjoint : a.rect.overlaps b.rect = false
  order_ne : a.rank = b.rank → a.order ≠ b.order
  along : a.rank = b.rank → a.order < b.order →
    (settings.direction.stretch a.rect).2 + settings.nodeSep ≤
      (settings.direction.stretch b.rect).1
  across : a.rank < b.rank →
    (settings.direction.band a.rect).2 + settings.rankSep ≤ (settings.direction.band b.rect).1

end Extents

variable {K : Type} [Field K] [LinearOrder K] [FloorRing K] [PlaneFunctions K]

namespace Rect

section Apart

variable {r s : Rect K}

theorem overlaps_of_beside (h : r.right ≤ s.x) : r.overlaps s = false ∧ s.overlaps r = false := by
  have hx : ¬ s.x < r.right := not_lt.mpr h
  constructor <;> simp [overlaps, hx]

theorem overlaps_of_below (h : r.bottom ≤ s.y) : r.overlaps s = false ∧ s.overlaps r = false := by
  have hy : ¬ s.y < r.bottom := not_lt.mpr h
  constructor <;> simp [overlaps, hy]

end Apart

variable (c : Point K) (w h dx dy : K)

theorem left_centered : ((centered c w h).shift dx dy).x = c.x - half w + dx := rfl

theorem top_centered : ((centered c w h).shift dx dy).y = c.y - half h + dy := rfl

variable [IsStrictOrderedRing K]

theorem right_centered : ((centered c w h).shift dx dy).right = c.x + half w + dx := by
  have hw := half_add_half w
  have hleft := left_centered c w h dx dy
  simp only [right, hleft]
  dsimp only [shift, centered]
  linarith

theorem bottom_centered : ((centered c w h).shift dx dy).bottom = c.y + half h + dy := by
  have hh := half_add_half h
  have htop := top_centered c w h dx dy
  simp only [bottom, htop]
  dsimp only [shift, centered]
  linarith

end Rect

namespace Direction

variable {d : Direction} {r s : Rect K}

theorem overlaps_of_stretch (h : (d.stretch r).2 ≤ (d.stretch s).1) :
    r.overlaps s = false ∧ s.overlaps r = false := by
  unfold stretch at h
  split at h
  · exact Rect.overlaps_of_below h
  · exact Rect.overlaps_of_beside h

variable [IsStrictOrderedRing K]

/-- On the screen a rectangle reaches as far along the layers as it is broad. -/
theorem exists_stretch_eq (d : Direction) (dx dy : K) : ∃ shift : K, ∀ along across w h : K,
    d.stretch ((Rect.centered (Layout.onScreen d along across) w h).shift dx dy) =
      (along - half (if d.isHorizontal then h else w) + shift,
        along + half (if d.isHorizontal then h else w) + shift) := by
  cases d with
  | topBottom | bottomTop =>
    refine ⟨dx, fun along across w h => Prod.ext (Rect.left_centered _ w h dx dy) ?_⟩
    exact Rect.right_centered _ w h dx dy
  | leftRight | rightLeft =>
    refine ⟨dy, fun along across w h => Prod.ext (Rect.top_centered _ w h dx dy) ?_⟩
    exact Rect.bottom_centered _ w h dx dy

/-- From rank to rank it reaches as far as it is high. -/
theorem exists_band_eq (d : Direction) (dx dy : K) : ∃ shift : K, ∀ along across w h : K,
    d.band ((Rect.centered (Layout.onScreen d along across) w h).shift dx dy) =
      (across - half (if d.isHorizontal then w else h) + shift,
        across + half (if d.isHorizontal then w else h) + shift) := by
  have hfar : ∀ x s t : K, -(-x + s + t) = x - s + -t := fun x s t => by ring
  have hnear : ∀ x s t : K, -(-x - s + t) = x + s + -t := fun x s t => by ring
  cases d with
  | topBottom =>
    refine ⟨dy, fun along across w h => Prod.ext (Rect.top_centered _ w h dx dy) ?_⟩
    exact Rect.bottom_centered _ w h dx dy
  | leftRight =>
    refine ⟨dx, fun along across w h => Prod.ext (Rect.left_centered _ w h dx dy) ?_⟩
    exact Rect.right_centered _ w h dx dy
  -- Where ranks run backwards, the far side of the rectangle comes first.
  | bottomTop =>
    refine ⟨-dy, fun along across w h => Prod.ext ?_ ?_⟩
    · exact (congrArg Neg.neg (Rect.bottom_centered _ w h dx dy)).trans (hfar across (half h) dy)
    · exact (congrArg Neg.neg (Rect.top_centered _ w h dx dy)).trans (hnear across (half h) dy)
  | rightLeft =>
    refine ⟨-dx, fun along across w h => Prod.ext ?_ ?_⟩
    · exact (congrArg Neg.neg (Rect.right_centered _ w h dx dy)).trans (hfar across (half w) dx)
    · exact (congrArg Neg.neg (Rect.left_centered _ w h dx dy)).trans (hnear across (half w) dx)

theorem overlaps_of_band (h : (d.band r).2 ≤ (d.band s).1) :
    r.overlaps s = false ∧ s.overlaps r = false := by
  cases d with
  | topBottom => exact Rect.overlaps_of_below h
  | bottomTop => exact (Rect.overlaps_of_below (neg_le_neg_iff.mp h)).symm
  | leftRight => exact Rect.overlaps_of_beside h
  | rightLeft => exact (Rect.overlaps_of_beside (neg_le_neg_iff.mp h)).symm

end Direction

namespace Layout

open Layering (Arc Layered)

variable {g : Graph} {settings : Settings K} {sizes : List (K × K)} {arcs : List Arc}

/-- The centres of nodes and bends of different ranks are half of both heights and a gap apart. -/
theorem acrossOf_add_le [IsStrictOrderedRing K] (sizes : List (K × K))
    (hsep : 0 ≤ settings.rankSep) {v w : Nat} (hv : v < (layeredGraph g arcs).size)
    (hw : w < (layeredGraph g arcs).size)
    (hrank : (layeredGraph g arcs).rankOf v < (layeredGraph g arcs).rankOf w) :
    acrossOf g settings sizes arcs v +
        (half ((heights settings sizes).getD v 0 + (heights settings sizes).getD w 0) +
          settings.rankSep) ≤
      acrossOf g settings sizes arcs w := by
  simp only [acrossOf, Scalar.zero_eq]
  exact acrossLayers_apart hsep hv hw hrank

/-- The lengths that a layout is made of. -/
structure Lengths (settings : Settings K) (sizes : List (K × K)) : Prop where
  nodeSep : 0 ≤ settings.nodeSep
  edgeSep : 0 ≤ settings.edgeSep
  rankSep : 0 ≤ settings.rankSep
  sizes : ∀ s ∈ sizes, 0 ≤ s.1 ∧ 0 ≤ s.2

namespace Lengths

omit [FloorRing K] [PlaneFunctions K] in
theorem breadth_nonneg (h : Lengths settings sizes) (v : Nat) :
    0 ≤ (breadths settings sizes).getD v 0 := by
  by_cases hv : v < sizes.length
  · obtain ⟨hwidth, hheight⟩ := h.sizes _ (List.getElem_mem hv)
    rw [getD_breadths hv]
    split
    · exact hheight
    · exact hwidth
  · rw [getD_of_size_le (by simpa [breadths] using hv)]

variable [IsStrictOrderedRing K]

omit [FloorRing K] [PlaneFunctions K] in
theorem room_nonneg (h : Lengths settings sizes) (v : Nat) :
    0 ≤ roomOf (layeredGraph g arcs) (breadths settings sizes)
      ⟨settings.nodeSep, settings.edgeSep⟩ v := by
  have hbreadth := h.breadth_nonneg v
  unfold roomOf Spacing.share
  apply half_nonneg
  split
  · exact add_nonneg hbreadth h.edgeSep
  · exact add_nonneg hbreadth h.nodeSep

/-- Whatever stands in one rank has its room there, in the order of the places. -/
theorem alongOf_add_le (h : Lengths settings sizes) {v w : Nat}
    (hv : v < (layeredGraph g arcs).size) (hw : w < (layeredGraph g arcs).size)
    (hrank : (layeredGraph g arcs).rankOf v = (layeredGraph g arcs).rankOf w)
    (hplace : ((layeredGraph g arcs).places (finalLayers g arcs)).getD v 0 <
      ((layeredGraph g arcs).places (finalLayers g arcs)).getD w 0) :
    alongOf g settings sizes arcs v +
        (roomOf (layeredGraph g arcs) (breadths settings sizes)
            ⟨settings.nodeSep, settings.edgeSep⟩ v +
          roomOf (layeredGraph g arcs) (breadths settings sizes)
            ⟨settings.nodeSep, settings.edgeSep⟩ w) ≤
      alongOf g settings sizes arcs w := by
  have hcomplete := complete_finalLayers g arcs
  obtain ⟨hr, hi, hgetv⟩ := Layered.exists_getElem_place hcomplete hv
  obtain ⟨_, hj, hgetw⟩ := Layered.exists_getElem_place hcomplete hw
  simp only [← hrank] at hj hgetw
  have hspaced := List.pairwise_iff_getElem.mp
    (spaced_alongLayers h.room_nonneg hcomplete _ (List.getElem_mem hr)) _ _ hi hj hplace
  rw [hgetv, hgetw] at hspaced
  simpa only [alongOf, Scalar.zero_eq] using hspaced

/-- Of two nodes of a rank, the one with the smaller place comes first along the layer. -/
theorem alongOf_apart (h : Lengths settings sizes) {v w : Nat} (hv : v < g.nodes.length)
    (hw : w < g.nodes.length)
    (hrank : (nodeRanks g arcs).getD v 0 = (nodeRanks g arcs).getD w 0)
    (hplace : ((layeredGraph g arcs).places (finalLayers g arcs)).getD v 0 <
      ((layeredGraph g arcs).places (finalLayers g arcs)).getD w 0) :
    alongOf g settings sizes arcs v +
        (half ((breadths settings sizes).getD v 0 + (breadths settings sizes).getD w 0) +
          settings.nodeSep) ≤
      alongOf g settings sizes arcs w := by
  rw [← rankOf_layeredGraph hv, ← rankOf_layeredGraph hw] at hrank
  have hspaced := h.alongOf_add_le (lt_size_layeredGraph arcs hv) (lt_size_layeredGraph arcs hw)
    hrank hplace
  have hroom : ∀ u < g.nodes.length, roomOf (layeredGraph g arcs) (breadths settings sizes)
      ⟨settings.nodeSep, settings.edgeSep⟩ u =
        half ((breadths settings sizes).getD u 0 + settings.nodeSep) := by
    intro u hu
    rw [roomOf, isVirtual_layeredGraph hu]
    rfl
  rw [hroom v hv, hroom w hw] at hspaced
  have hsep := half_add_half settings.nodeSep
  simp only [half_add] at hspaced ⊢
  linarith

/-- The node of the smaller rank comes first from rank to rank. -/
theorem acrossOf_apart (h : Lengths settings sizes) (arcs : List Arc) {v w : Nat}
    (hv : v < g.nodes.length) (hw : w < g.nodes.length)
    (hrank : (nodeRanks g arcs).getD v 0 < (nodeRanks g arcs).getD w 0) :
    acrossOf g settings sizes arcs v +
        (half ((heights settings sizes).getD v 0 + (heights settings sizes).getD w 0) +
          settings.rankSep) ≤
      acrossOf g settings sizes arcs w := by
  rw [← rankOf_layeredGraph hv, ← rankOf_layeredGraph hw] at hrank
  exact acrossOf_add_le sizes h.rankSep (lt_size_layeredGraph arcs hv)
    (lt_size_layeredGraph arcs hw) hrank

section Framed

variable (h : Lengths settings sizes) (hsizes : sizes.length = g.nodes.length) {v w : Nat}
  (hv : v < sizes.length) (hw : w < sizes.length) (dx dy : K) (a b : String)

include h hsizes

theorem stretch_apart (hrank : (nodeRanks g arcs).getD v 0 = (nodeRanks g arcs).getD w 0)
    (hplace : ((layeredGraph g arcs).places (finalLayers g arcs)).getD v 0 <
      ((layeredGraph g arcs).places (finalLayers g arcs)).getD w 0) :
    (settings.direction.stretch
        ((placedNode g settings sizes arcs v a sizes[v]).shift dx dy).rect).2 + settings.nodeSep ≤
      (settings.direction.stretch
        ((placedNode g settings sizes arcs w b sizes[w]).shift dx dy).rect).1 := by
  obtain ⟨shift, hstretch⟩ := settings.direction.exists_stretch_eq dx dy
  have hapart := h.alongOf_apart (hsizes ▸ hv) (hsizes ▸ hw) hrank hplace
  rw [getD_breadths hv, getD_breadths hw, half_add] at hapart
  simp only [placedNode, PlacedNode.shift, hstretch]
  linarith

theorem band_apart (hrank : (nodeRanks g arcs).getD v 0 < (nodeRanks g arcs).getD w 0) :
    (settings.direction.band
        ((placedNode g settings sizes arcs v a sizes[v]).shift dx dy).rect).2 + settings.rankSep ≤
      (settings.direction.band
        ((placedNode g settings sizes arcs w b sizes[w]).shift dx dy).rect).1 := by
  obtain ⟨shift, hband⟩ := settings.direction.exists_band_eq dx dy
  have hapart := h.acrossOf_apart arcs (hsizes ▸ hv) (hsizes ▸ hw) hrank
  rw [getD_heights hv, getD_heights hw, half_add] at hapart
  simp only [placedNode, PlacedNode.shift, hband]
  linarith

/-- Wherever the drawing is moved to, two of its nodes keep their distance. -/
theorem separated (hvw : v ≠ w) :
    Separated settings ((placedNode g settings sizes arcs v a sizes[v]).shift dx dy)
      ((placedNode g settings sizes arcs w b sizes[w]).shift dx dy) := by
  have hplace := place_ne arcs (hsizes ▸ hv) (hsizes ▸ hw) hvw
  have hnode := h.nodeSep
  have hsep := h.rankSep
  refine ⟨?_, hplace, ?_, ?_⟩
  · rcases lt_trichotomy ((nodeRanks g arcs).getD v 0) ((nodeRanks g arcs).getD w 0) with
      hlt | heq | hgt
    · have hband := h.band_apart hsizes hv hw dx dy a b hlt
      exact (Direction.overlaps_of_band (le_of_add_le_of_nonneg_left hband hsep)).1
    · rcases Nat.lt_or_gt_of_ne (hplace heq) with hlt | hgt
      · have hstretch := h.stretch_apart hsizes hv hw dx dy a b heq hlt
        exact (Direction.overlaps_of_stretch (le_of_add_le_of_nonneg_left hstretch hnode)).1
      · have hstretch := h.stretch_apart hsizes hw hv dx dy b a heq.symm hgt
        exact (Direction.overlaps_of_stretch (le_of_add_le_of_nonneg_left hstretch hnode)).2
    · have hband := h.band_apart hsizes hw hv dx dy b a hgt
      exact (Direction.overlaps_of_band (le_of_add_le_of_nonneg_left hband hsep)).2
  · exact h.stretch_apart hsizes hv hw dx dy a b
  · exact h.band_apart hsizes hv hw dx dy a b

end Framed
end Lengths
end Layout

/-- **Nodes do not overlap.** In a layout with separations that are not negative, any two nodes
keep the gaps that were asked for, whatever the graph is like. -/
theorem Graph.layout_separated [IsStrictOrderedRing K] {g : Graph} {settings : Settings K}
    {sizer : Sizer K} {l : Layout K} (hnode : 0 ≤ settings.nodeSep) (hedge : 0 ≤ settings.edgeSep)
    (hrank : 0 ≤ settings.rankSep) (h : g.layout settings sizer = .ok l) :
    l.nodes.map (·.id) = g.nodes ∧
      ∀ i j (hi : i < l.nodes.length) (hj : j < l.nodes.length), i ≠ j →
        Separated settings l.nodes[i] l.nodes[j] := by
  obtain ⟨-, ⟨hempty, rfl⟩ | ⟨sizes, arcs, hsizes, -, rfl⟩⟩ := Graph.layout_eq_ok h
  · rw [hempty]
    refine ⟨rfl, ?_⟩
    exact fun i j hi => absurd hi (Nat.not_lt_zero i)
  · have hlength : sizes.length = g.nodes.length := hsizes.length_eq.symm
    have hlengths : Layout.Lengths settings sizes := by
      refine ⟨hnode, hedge, hrank, ?_⟩
      intro s hs
      obtain ⟨hwidth, hheight⟩ := Layout.sizes_isLength hsizes s hs
      exact ⟨Scalar.isLength_iff.mp hwidth, Scalar.isLength_iff.mp hheight⟩
    refine ⟨Layout.ids_arranged settings arcs hlength, ?_⟩
    obtain ⟨dx, dy, hget⟩ := Layout.exists_getElem_nodes g settings sizes arcs
    intro i j hi hj hij
    rw [Layout.length_arranged_nodes settings arcs hlength] at hi hj
    rw [hget i _ hi (hlength ▸ hi), hget j _ hj (hlength ▸ hj)]
    exact hlengths.separated hlength _ _ dx dy _ _ hij

/-- An edge beside a loop, so that one of two ranks holds two nodes. -/
def edgeAndLoop : Graph :=
  { directed := true, nodes := ["a", "b", "c"], edges := [⟨"a", "b", ∅⟩, ⟨"c", "c", ∅⟩] }

/-- Ranks run to the left. -/
def leftward : Settings ℚ := { Settings.standard with direction := .rightLeft }

theorem Graph.layout_separated_edgeAndLoop :
    0 ≤ leftward.nodeSep ∧ 0 ≤ leftward.edgeSep ∧ 0 ≤ leftward.rankSep ∧
      ∃ l, edgeAndLoop.layout leftward (fun _ _ => (40, 20)) = .ok l ∧
        l.nodes.map (·.id) = ["a", "b", "c"] ∧
        ∀ i j (hi : i < l.nodes.length) (hj : j < l.nodes.length), i ≠ j →
          Separated leftward l.nodes[i] l.nodes[j] := by
  have hnode : 0 ≤ leftward.nodeSep := by decide +kernel
  have hedge : 0 ≤ leftward.edgeSep := by decide +kernel
  have hrank : 0 ≤ leftward.rankSep := by decide +kernel
  have hlayout : edgeAndLoop.layout leftward (fun _ _ => (40, 20)) = .ok
      (Layout.arranged edgeAndLoop leftward [(40, 20), (40, 20), (40, 20)] [(0, 1), (2, 2)]) := rfl
  exact ⟨hnode, hedge, hrank, _, hlayout, Graph.layout_separated hnode hedge hrank hlayout⟩

end Tiered
