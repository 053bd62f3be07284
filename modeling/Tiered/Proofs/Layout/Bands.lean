import Tiered.Proofs.Layout.Routes

/-!
# The centre lines of ranks

Ranks are bands that follow each other at the gap that was asked for. A band is as deep as the
deepest node of its rank, and one without nodes has no depth.

* `Layout.rankCentre`: the centre line of a rank, said by the nodes of a layout;
* `rankDepths_le_iff`: the depths that a layout reckons with are those of the bands;
* `acrossOf_eq`: so nodes and bends stand on the centre lines of their ranks.
-/

namespace Tiered

/-- Where the band of a rank begins, if the first one begins at `top`. -/
def bandTop {K : Type} [Add K] (depth : Nat → K) (sep top : K) : Nat → K
  | 0 => top
  | r + 1 => bandTop depth sep top r + (depth r + sep)

theorem foldl_max_le_iff {K : Type} [LinearOrder K] (xs : List K) (a b : K) :
    xs.foldl max a ≤ b ↔ a ≤ b ∧ ∀ x ∈ xs, x ≤ b := by
  induction xs generalizing a with
  | nil => simp
  | cons x xs ih =>
    rw [List.foldl_cons, ih, max_le_iff, List.forall_mem_cons, and_assoc]

section Reading

variable {K : Type} [Field K] [LinearOrder K] [FloorRing K] [PlaneFunctions K]

/-- The depth of the deepest node of a rank. -/
def Layout.rankDepth (l : Layout K) (r : Nat) : K :=
  ((l.nodes.filter (·.rank = r)).map fun n => l.direction.depth n.rect).foldl max 0

/-- Where the centre line of a rank is, if the band of the first one begins at `top`. -/
def Layout.rankCentre (l : Layout K) (rankSep top : K) (r : Nat) : K :=
  bandTop l.rankDepth rankSep top r + half (l.rankDepth r)

omit [FloorRing K] [PlaneFunctions K] in
theorem Layout.rankDepth_le_iff {l : Layout K} {r : Nat} {b : K} :
    l.rankDepth r ≤ b ↔ 0 ≤ b ∧ ∀ n ∈ l.nodes, n.rank = r → l.direction.depth n.rect ≤ b := by
  rw [rankDepth, foldl_max_le_iff]
  simp only [List.forall_mem_map, List.mem_filter, decide_eq_true_eq, and_imp]

end Reading

namespace Layout

open Layering (Arc Layered)

/-! ## Bands -/

section Bands

variable {K : Type} [Field K]

/-- A first band in front moves all others back. -/
theorem bandTop_succ (depth : Nat → K) (sep top : K) (r : Nat) :
    bandTop depth sep top (r + 1) =
      bandTop (fun q => depth (q + 1)) sep (top + (depth 0 + sep)) r := by
  induction r with
  | zero => rfl
  | succ r ih =>
    rw [bandTop, ih]
    rfl

theorem bandTop_add (depth : Nat → K) (sep top shift : K) (r : Nat) :
    bandTop depth sep (top + shift) r = bandTop depth sep top r + shift := by
  induction r with
  | zero => rfl
  | succ r ih =>
    rw [bandTop, bandTop, ih]
    ring

variable [LinearOrder K] [FloorRing K] [PlaneFunctions K]

theorem getD_centres (sep top : K) {depths : List K} {r : Nat} (hr : r < depths.length) :
    (centres sep top depths).getD r 0 =
      bandTop (depths.getD · 0) sep top r + half (depths.getD r 0) := by
  induction depths generalizing top r with
  | nil => cases hr
  | cons d rest ih =>
    cases r with
    | zero => rfl
    | succ r =>
      rw [bandTop_succ]
      exact ih (top + (d + sep)) (Nat.lt_of_succ_lt_succ hr)

end Bands

/-! ## Depths -/

section Depths

variable {K : Type} [Field K] [LinearOrder K] {g : Layered} {heights : Array K}

theorem foldl_deepen_le_iff (vs : List Nat) {depths : Array K} {r : Nat} (hr : r < depths.size)
    (b : K) :
    (vs.foldl (deepen g heights) depths).getD r 0 ≤ b ↔
      depths.getD r 0 ≤ b ∧ ∀ v ∈ vs, g.rankOf v = r → heights.getD v 0 ≤ b := by
  induction vs generalizing depths with
  | nil => simp
  | cons v vs ih =>
    have hstep : (deepen g heights depths v).getD r 0 ≤ b ↔
        depths.getD r 0 ≤ b ∧ (g.rankOf v = r → heights.getD v 0 ≤ b) := by
      rw [deepen, getD_modify]
      by_cases hrank : g.rankOf v = r
      · rw [if_pos ⟨hrank, hr⟩, max_le_iff]
        simp [hrank]
      · rw [if_neg fun h => hrank h.1]
        simp [hrank]
    rw [List.foldl_cons, ih (by rwa [deepen, Array.size_modify]), hstep, List.forall_mem_cons,
      and_assoc]

variable [FloorRing K] [PlaneFunctions K]

/-- The depth of a rank is the least that all of its nodes fit in. -/
theorem rankDepths_le_iff (g : Layered) (heights : Array K) (r : Nat) (b : K) :
    (rankDepths g heights).getD r 0 ≤ b ↔
      0 ≤ b ∧ ∀ v < g.size, g.rankOf v = r → heights.getD v 0 ≤ b := by
  by_cases hr : r < g.depth
  · rw [rankDepths_eq, foldl_deepen_le_iff _ (by rwa [Array.size_replicate]), getD_replicate]
    simp only [List.mem_range]
  · rw [getD_of_size_le (by rw [size_rankDepths]; exact Nat.le_of_not_lt hr)]
    refine ⟨fun hb => ⟨hb, fun v hv hrank => ?_⟩, And.left⟩
    exact absurd (hrank ▸ Layered.rankOf_lt_depth hv) hr

end Depths

/-! ## Centre lines -/

section Centres

variable {K : Type} [Field K] [LinearOrder K] [FloorRing K] [PlaneFunctions K] {g : Graph}
  {settings : Settings K} {sizes : List (K × K)} {arcs : List Arc}

/-- Everything in a layered graph stands on the centre line of its rank. -/
theorem acrossOf_eq {v : Nat} (hv : v < (layeredGraph g arcs).size) :
    acrossOf g settings sizes arcs v =
      bandTop ((rankDepths (layeredGraph g arcs) (heights settings sizes)).getD · 0)
          settings.rankSep 0 ((layeredGraph g arcs).rankOf v) +
        half ((rankDepths (layeredGraph g arcs) (heights settings sizes)).getD
          ((layeredGraph g arcs).rankOf v) 0) := by
  have hr : (layeredGraph g arcs).rankOf v <
      (rankDepths (layeredGraph g arcs) (heights settings sizes)).toList.length := by
    rw [Array.length_toList, size_rankDepths]
    exact Layered.rankOf_lt_depth hv
  have hget : ∀ r, (rankDepths (layeredGraph g arcs) (heights settings sizes)).toList.getD r 0 =
      (rankDepths (layeredGraph g arcs) (heights settings sizes)).getD r 0 := by
    intro r
    rw [List.getD_eq_getElem?_getD, Array.getD_eq_getD_getElem?, Array.getElem?_toList]
  simp only [acrossOf, Scalar.zero_eq]
  rw [getD_acrossLayers hv, getD_centres _ _ hr]
  simp only [hget]

/-- The node with a number, and its size. -/
theorem exists_placedNode_eq {v : Nat} {n : PlacedNode K}
    (hn : (placedNodes g settings sizes arcs)[v]? = some n) :
    ∃ (hs : v < sizes.length) (id : String),
      v < g.nodes.length ∧ n = placedNode g settings sizes arcs v id sizes[v] := by
  obtain ⟨hv, rfl⟩ := List.getElem?_eq_some_iff.mp hn
  have hboth : v < g.nodes.length ∧ v < sizes.length := by
    simpa [placedNodes] using hv
  exact ⟨hboth.2, g.nodes[v], hboth.1, by simp [placedNodes]⟩

theorem depth_placedNode (g : Graph) (settings : Settings K) (arcs : List Arc) {v : Nat}
    (hs : v < sizes.length) (id : String) :
    settings.direction.depth (placedNode g settings sizes arcs v id sizes[v]).rect =
      (heights settings sizes).getD v 0 := by
  rw [getD_heights hs]
  rfl

/-- The depths that a layout reckons with are those of its nodes: bends have no depth. -/
theorem rankDepth_arranged (hlength : sizes.length = g.nodes.length) (r : Nat) :
    (arranged g settings sizes arcs).rankDepth r =
      (rankDepths (layeredGraph g arcs) (heights settings sizes)).getD r 0 := by
  obtain ⟨dx, dy, hnodes, -⟩ := exists_arranged_eq g settings sizes arcs
  refine eq_of_forall_ge_iff fun b => ?_
  rw [rankDepth_le_iff, rankDepths_le_iff]
  refine and_congr_right fun hb => ⟨fun h v hv hrank => ?_, fun h n hn hrank => ?_⟩
  · by_cases hs : v < sizes.length
    · have hg : v < g.nodes.length := hlength ▸ hs
      have hmem : (placedNode g settings sizes arcs v g.nodes[v] sizes[v]).shift dx dy ∈
          (arranged g settings sizes arcs).nodes := by
        rw [hnodes]
        refine List.mem_map_of_mem (List.mem_iff_getElem?.mpr ⟨v, ?_⟩)
        simp [placedNodes, hg, hs]
      have hdepth := h _ hmem ((rankOf_layeredGraph hg).symm.trans hrank)
      rw [← depth_placedNode g settings arcs hs g.nodes[v]]
      exact hdepth
    · rwa [getD_of_size_le (by simpa [heights] using hs)]
  · rw [hnodes] at hn
    obtain ⟨n, hmem, rfl⟩ := List.mem_map.mp hn
    obtain ⟨v, hv⟩ := List.mem_iff_getElem?.mp hmem
    obtain ⟨hs, id, hg, rfl⟩ := exists_placedNode_eq hv
    have hheight := h v (lt_size_layeredGraph arcs hg) ((rankOf_layeredGraph hg).trans hrank)
    rwa [← depth_placedNode g settings arcs hs id] at hheight

/-- Everything in a layered graph is drawn on the centre line of its rank. -/
theorem acrossOf_eq_rankCentre (hlength : sizes.length = g.nodes.length) {v : Nat}
    (hv : v < (layeredGraph g arcs).size) (top : K) :
    acrossOf g settings sizes arcs v + top =
      (arranged g settings sizes arcs).rankCentre settings.rankSep top
        ((layeredGraph g arcs).rankOf v) := by
  have htop := bandTop_add (arranged g settings sizes arcs).rankDepth settings.rankSep 0 top
    ((layeredGraph g arcs).rankOf v)
  rw [zero_add] at htop
  rw [rankCentre, htop, acrossOf_eq hv]
  simp only [← rankDepth_arranged hlength]
  ring

end Centres

end Layout
end Tiered
