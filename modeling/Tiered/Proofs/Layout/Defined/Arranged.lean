import Tiered.Proofs.Layering.DepthFirst
import Tiered.Proofs.Layout.Defined.Coordinates
import Tiered.Proofs.Layout.Defined.Routes

/-!
# Which layouts are defined

Nodes get defined coordinates and edges are routed along points that are defined, so only clipping
can fail (`exists_joins`). The frame passes over what is undefined (`exists_arranged_defined`): an
edge that is clipped lengthwise of a box without width leaves the rest of the drawing as it is
(`Determined`).
-/

namespace Tiered

open Checked

variable {K : Type} [Field K] [LinearOrder K] [FloorRing K] [PlaneFunctions K]

namespace Layout

open Layering (Arc)

/-- Of a drawing everything is defined but edges with an end that leads lengthwise along a box
without width: nodes, the box around all, loops, and all other edges. -/
structure Determined (l : Layout (Checked K)) : Prop where
  nodes : ∀ n ∈ l.nodes, n.IsDefined
  box : l.box.IsDefined
  loops : ∀ e ∈ l.edges, e.source = e.target → e.IsDefined
  edges : ∀ e ∈ l.edges, e.source ≠ e.target →
    ∃ n ∈ l.nodes, ∃ m ∈ l.nodes, ∃ mids : List (Point (Checked K)),
      (∀ p ∈ mids, p.IsDefined) ∧ Joins e n m mids ∧
      (e.IsDefined ↔ ¬n.outline.Lengthwise (sourceAim m mids) ∧
        ¬m.outline.Lengthwise (targetAim n m mids))

/-! ## What is arranged -/

section Arranged

/-- A routed edge leads where its arc does. -/
theorem exists_arc_of_mem_routedEdges {L : Type} [Scalar L] {g : Graph} {settings : Settings L}
    {sizes : List (L × L)} {arcs : List Arc}
    (harcs : List.Forall₂ (fun e arc => arcOf g e = .ok arc) g.edges arcs) {x : RoutedEdge L}
    (hx : x ∈ routedEdges g settings sizes arcs) :
    ∃ i, ∃ (hi : i < (routedEdges g settings sizes arcs).length) (ha : i < arcs.length),
      x = (routedEdges g settings sizes arcs)[i] ∧
      (x.source = x.target ↔ arcs[i].1 = arcs[i].2) ∧
      g.nodes[arcs[i].1]? = some x.source ∧ g.nodes[arcs[i].2]? = some x.target := by
  obtain ⟨i, hi, rfl⟩ := List.mem_iff_getElem.mp hx
  have he : i < g.edges.length := by
    rwa [length_routedEdges, length_plans harcs.length_eq.symm] at hi
  have ha : i < arcs.length := harcs.length_eq ▸ he
  obtain ⟨hsource, htarget, -⟩ := getElem_routedEdges hi he ha
  obtain ⟨hu, hv, hsame⟩ := arcOf_eq_ok (getElem_arcs harcs he ha)
  rw [← hsource, ← htarget] at hsame
  rw [← hsource] at hu
  rw [← htarget] at hv
  refine ⟨i, hi, ha, rfl, ⟨hsame, fun h => ?_⟩, hu, hv⟩
  rw [h, hv] at hu
  exact (Option.some.inj hu).symm

/-- A routed edge is defined if its route is. -/
theorem isDefined_routedEdges_iff {g : Graph} {settings : Settings (Checked K)}
    (hsettings : settings.IsDefined) {sizes : List (Checked K × Checked K)} {arcs : List Arc}
    {x : RoutedEdge (Checked K)} (hx : x ∈ routedEdges g settings sizes arcs) :
    x.IsDefined ↔ ∀ p ∈ x.points, p.IsDefined := by
  obtain ⟨plan, -, rfl⟩ := List.mem_map.mp hx
  exact isDefined_routeEdge_iff hsettings

variable {g : Graph} {settings : Settings (Checked K)} {sizes : List (Checked K × Checked K)}
  {arcs : List Arc}
  (hsizes : ∀ s ∈ sizes, Scalar.isLength s.1 = true ∧ Scalar.isLength s.2 = true)

include hsizes

/-- The centre of a node is where routes to it lead. -/
theorem exists_placedNode (settings : Settings (Checked K)) (arcs : List Arc)
    (hlength : sizes.length = g.nodes.length) {v : Nat}
    (hv : v < g.nodes.length) :
    ∃ n ∈ placedNodes g settings sizes arcs, g.nodes[v]? = some n.id ∧
      n.rect.center = onScreen settings.direction (centreOf g settings sizes arcs v).1
        (centreOf g settings sizes arcs v).2 ∧
      ∀ o, ((placedNodes g settings sizes arcs).map (·.outline)).toArray.getD v o = n.outline := by
  have hs : v < sizes.length := hlength ▸ hv
  have hget : (placedNodes g settings sizes arcs)[v]? =
      some (placedNode g settings sizes arcs v g.nodes[v] sizes[v]) := by
    simp [placedNodes, hv, hs]
  obtain ⟨hwidth, hheight⟩ := hsizes _ (List.getElem_mem hs)
  refine ⟨_, List.mem_of_getElem? hget, List.getElem?_eq_getElem hv, ?_, ?_⟩
  · rw [rect_placedNode]
    have hhalf : ∀ {x : Checked K}, Scalar.isLength x = true → (x / 2).IsDefined :=
      fun hx => isDefined_half.mpr (.of_isLength hx)
    exact congrArg₂ Point.mk (sub_add_self _ (hhalf hwidth)) (sub_add_self _ (hhalf hheight))
  · intro o
    rw [Array.getD_eq_getD_getElem?, List.getElem?_toArray, List.getElem?_map, hget]
    rfl

variable [IsStrictOrderedRing K] (hsettings : settings.IsDefined)

include hsettings

theorem isDefined_centreOf (g : Graph) (arcs : List Arc) (v : Nat) :
    (centreOf g settings sizes arcs v).1.IsDefined ∧
      (centreOf g settings sizes arcs v).2.IsDefined := by
  have hbreadths : AllDefined (breadths settings sizes) := by
    apply allDefined_toArray
    intro x hx
    obtain ⟨s, hs, rfl⟩ := List.mem_map.mp hx
    split
    · exact IsDefined.of_isLength (hsizes s hs).2
    · exact IsDefined.of_isLength (hsizes s hs).1
  exact ⟨allDefined_alongLayers _ hbreadths ⟨hsettings.nodeSep, hsettings.edgeSep⟩ v,
    allDefined_acrossLayers hsettings.rankSep v⟩

theorem isDefined_placedNodes {n : PlacedNode (Checked K)}
    (hn : n ∈ placedNodes g settings sizes arcs) : n.IsDefined := by
  obtain ⟨v, hv, rfl⟩ := List.mem_iff_getElem.mp hn
  have hs : v < sizes.length := by
    simp only [placedNodes, List.length_mapIdx, List.length_zip] at hv
    omega
  simp only [placedNodes, List.getElem_mapIdx, List.getElem_zip]
  obtain ⟨halong, hacross⟩ := isDefined_centreOf hsizes hsettings g arcs v
  obtain ⟨hwidth, hheight⟩ := hsizes _ (List.getElem_mem hs)
  constructor
  · rw [rect_placedNode]
    exact Rect.isDefined_centered (isDefined_onScreen _ halong hacross) (.of_isLength hwidth)
      (.of_isLength hheight)
  · exact hwidth
  · exact hheight

/-- Where a line would be bent is defined. -/
theorem isDefined_bentAt {i : Nat} (hi : i < (plans g settings arcs).length) (u v : Nat) :
    (bentAt (centreOf g settings sizes arcs u) (centreOf g settings sizes arcs v)
      (plans g settings arcs)[i].bend).1.IsDefined ∧
    (bentAt (centreOf g settings sizes arcs u) (centreOf g settings sizes arcs v)
      (plans g settings arcs)[i].bend).2.IsDefined := by
  have hbend : (plans g settings arcs)[i].bend.IsDefined := by
    have hmem : (plans g settings arcs)[i].bend ∈ bends g settings arcs := by
      simp only [plans, List.getElem_map, List.getElem_zip]
      exact List.getElem_mem _
    exact isDefined_spread hsettings.edgeSep _ _ _ _ hmem
  have hu := isDefined_centreOf hsizes hsettings g arcs u
  have hv := isDefined_centreOf hsizes hsettings g arcs v
  simp [bentAt, hu, hv, hbend]

section Routed

variable (hlength : sizes.length = g.nodes.length)
  (harcs : List.Forall₂ (fun e arc => arcOf g e = .ok arc) g.edges arcs)
  {x : RoutedEdge (Checked K)} (hx : x ∈ routedEdges g settings sizes arcs)

include hlength harcs hx

/-- A loop is drawn beside its node. -/
theorem isDefined_loop (hloop : x.source = x.target) : x.IsDefined := by
  obtain ⟨i, hi, ha, rfl, hsame, -⟩ := exists_arc_of_mem_routedEdges harcs hx
  have hp : i < (plans g settings arcs).length := by rwa [length_routedEdges] at hi
  obtain ⟨he, -, ht, hd⟩ := lt_of_lt_plans harcs.length_eq.symm hp
  obtain ⟨-, harc, -⟩ := getElem_plans hp he ha ht
  have hget := getElem_downArcs hd ha ht
  rw [if_pos (hsame.mp hloop)] at hget
  have hbecomes := becomes_plan harcs hp hd
  rw [hget] at hbecomes
  have hchain : (plans g settings arcs)[i].chain = none := hbecomes
  obtain ⟨n, hn, -, -, hout⟩ := exists_placedNode hsizes settings arcs hlength
    (arcs_lt harcs (List.getElem_mem ha)).1
  apply (isDefined_routedEdges_iff hsettings hx).mpr
  simp only [getElem_routedEdges_eq hi hp, routeEdge, hchain, harc, hout]
  exact isDefined_selfLoop (isDefined_placedNodes hsizes hsettings hn).rect _ _

/-- An edge that is no loop joins its nodes by points that are defined. -/
theorem exists_joins (hne : x.source ≠ x.target) :
    ∃ n ∈ placedNodes g settings sizes arcs, ∃ m ∈ placedNodes g settings sizes arcs,
      ∃ mids, (∀ p ∈ mids, p.IsDefined) ∧ Joins x n m mids := by
  obtain ⟨i, hi, ha, rfl, hsame, hsource, htarget⟩ := exists_arc_of_mem_routedEdges harcs hx
  have hp : i < (plans g settings arcs).length := by rwa [length_routedEdges] at hi
  obtain ⟨he, -, ht, -⟩ := lt_of_lt_plans harcs.length_eq.symm hp
  obtain ⟨-, harc, -⟩ := getElem_plans hp he ha ht
  obtain ⟨hu, hv⟩ := arcs_lt harcs (List.getElem_mem ha)
  obtain ⟨n, hn, hnid, hncenter, hnout⟩ := exists_placedNode hsizes settings arcs hlength hu
  obtain ⟨m, hm, hmid, hmcenter, hmout⟩ := exists_placedNode hsizes settings arcs hlength hv
  obtain ⟨chain, mids, hchain, hline, hdefined⟩ :=
    exists_line_eq (P := fun c : Checked K × Checked K => c.1.IsDefined ∧ c.2.IsDefined)
      harcs hp ha (mt hsame.mpr hne)
      (fun w _ _ _ => isDefined_centreOf hsizes hsettings g arcs w)
      (fun d _ => isDefined_bentAt hsizes hsettings hp d.1 d.2)
  refine ⟨n, hn, m, hm, mids.map fun c => onScreen settings.direction c.1 c.2, ?_, ?_, ?_, ?_⟩
  · intro p hp
    obtain ⟨c, hc, rfl⟩ := List.mem_map.mp hp
    exact isDefined_onScreen _ (hdefined c hc).1 (hdefined c hc).2
  · exact Option.some.inj (hnid.symm.trans hsource)
  · exact Option.some.inj (hmid.symm.trans htarget)
  · simp only [getElem_routedEdges_eq hi hp, routeEdge, hchain, harc, hline, hnout, hmout]
    rw [List.map_cons, List.map_append, List.map_singleton, ← hncenter, ← hmcenter]
    exact clipEnds_eq_toward _ _ _ _ _

end Routed

/-- The frame is defined, and moves everything by distances that are. -/
theorem exists_arranged_defined (arcs : List Arc) (hnodes : g.nodes ≠ [])
    (hlength : sizes.length = g.nodes.length) :
    ∃ dx dy : Checked K, dx.IsDefined ∧ dy.IsDefined ∧
      (arranged g settings sizes arcs).nodes =
        (placedNodes g settings sizes arcs).map (·.shift dx dy) ∧
      (arranged g settings sizes arcs).edges =
        (routedEdges g settings sizes arcs).map (·.shift dx dy) ∧
      (arranged g settings sizes arcs).box.IsDefined := by
  obtain ⟨n, rest, hplaced⟩ : ∃ n rest, placedNodes g settings sizes arcs = n :: rest := by
    apply List.exists_cons_of_ne_nil
    rw [← List.length_pos_iff] at hnodes ⊢
    simp only [placedNodes, List.length_mapIdx, List.length_zip]
    omega
  have hn : n.IsDefined := isDefined_placedNodes hsizes hsettings (hplaced ▸ List.mem_cons_self)
  have hbounds : (Box.around (extent (placedNodes g settings sizes arcs)
      (routedEdges g settings sizes arcs))).IsDefined := by
    rw [hplaced]
    exact Box.isDefined_around (p := ⟨n.rect.x, n.rect.y⟩) ⟨hn.rect.x, hn.rect.y⟩ _
  rw [arranged_eq]
  refine ⟨_, _, isDefined_sub.mpr ⟨hsettings.margin, hbounds.minX⟩,
    isDefined_sub.mpr ⟨hsettings.margin, hbounds.minY⟩, rfl, rfl, ?_⟩
  have hmargin : ((2 : Checked K) * settings.margin).IsDefined :=
    isDefined_mul.mpr ⟨isDefined_ofNat 2, hsettings.margin⟩
  constructor
  · exact isDefined_ofNat 0
  · exact isDefined_ofNat 0
  · exact isDefined_add.mpr ⟨isDefined_sub.mpr ⟨hbounds.maxX, hbounds.minX⟩, hmargin⟩
  · exact isDefined_add.mpr ⟨isDefined_sub.mpr ⟨hbounds.maxY, hbounds.minY⟩, hmargin⟩

variable (hlength : sizes.length = g.nodes.length)
  (harcs : List.Forall₂ (fun e arc => arcOf g e = .ok arc) g.edges arcs)

include hlength harcs

theorem determined_arranged (hroots : ExactRoots K) (hnodes : g.nodes ≠ []) :
    (arranged g settings sizes arcs).Determined := by
  obtain ⟨dx, dy, hdx, hdy, hplaced, hrouted, hbox⟩ :=
    exists_arranged_defined hsizes hsettings arcs hnodes hlength
  constructor
  · intro n hn
    rw [hplaced] at hn
    obtain ⟨m, hm, rfl⟩ := List.mem_map.mp hn
    exact (isDefined_placedNodes hsizes hsettings hm).shift hdx hdy
  · exact hbox
  · intro e he hloop
    rw [hrouted] at he
    obtain ⟨x, hx, rfl⟩ := List.mem_map.mp he
    exact (RoutedEdge.isDefined_shift hdx hdy).mpr
      (isDefined_loop hsizes hsettings hlength harcs hx hloop)
  · intro e he hne
    rw [hrouted] at he
    obtain ⟨x, hx, rfl⟩ := List.mem_map.mp he
    obtain ⟨n, hn, m, hm, mids, hmids, hjoins⟩ :=
      exists_joins hsizes hsettings hlength harcs hx hne
    have hn' := (isDefined_placedNodes hsizes hsettings hn).shift hdx hdy
    have hm' := (isDefined_placedNodes hsizes hsettings hm).shift hdx hdy
    have hjoins' := hjoins.shift hdx hdy
    have hmids' : ∀ p ∈ mids.map (·.shift dx dy), p.IsDefined := by
      intro p hp
      obtain ⟨q, hq, rfl⟩ := List.mem_map.mp hp
      exact (Point.isDefined_shift hdx hdy).mpr (hmids q hq)
    refine ⟨n.shift dx dy, hplaced ▸ List.mem_map_of_mem hn, m.shift dx dy,
      hplaced ▸ List.mem_map_of_mem hm, _, hmids', hjoins', ?_⟩
    rw [← isDefined_route_iff hroots hn' hm' hmids', ← hjoins'.points]
    constructor
    · exact RoutedEdge.IsDefined.points
    · intro h
      apply (RoutedEdge.isDefined_shift hdx hdy).mpr
      apply (isDefined_routedEdges_iff hsettings hx).mpr
      exact fun p hp => (Point.isDefined_shift hdx hdy).mp (h _ (List.mem_map_of_mem hp))

end Arranged

theorem determined_emptyLayout (g : Graph) (settings : Settings (Checked K)) :
    (g.emptyLayout settings).Determined where
  nodes _ hn := absurd hn List.not_mem_nil
  box := ⟨isDefined_ofNat 0, isDefined_ofNat 0, isDefined_ofNat 0, isDefined_ofNat 0⟩
  loops _ he := absurd he List.not_mem_nil
  edges _ he := absurd he List.not_mem_nil

end Layout

/-- **Only along a box without width is zero divided by zero.** Clipping is undefined towards a
point straight above or below a box that has no width. Towards every other point, whatever the shape
is and whichever extents are zero, it divides by nothing that is zero and stays within the
rectangle. So in a drawing of nodes of any sizes all numbers are defined but those of edges that are
clipped so. -/
theorem Graph.clipping_determined [IsStrictOrderedRing K] (hroots : ExactRoots K) :
    (∀ (o : Layout.Outline (Checked K)) (p : Point (Checked K)), o.rect.IsDefined →
      Scalar.isLength o.rect.width = true → Scalar.isLength o.rect.height = true → p.IsDefined →
      (o.Lengthwise p → (Layout.clip o p).y = .undefined) ∧
      (¬o.Lengthwise p → (Layout.clip o p).IsDefined ∧ o.rect.Encloses (Layout.clip o p))) ∧
    ∀ (g : Graph) (settings : Settings (Checked K)) (sizer : Sizer (Checked K))
      (l : Layout (Checked K)), settings.IsDefined → g.layout settings sizer = .ok l →
      l.Determined := by
  constructor
  · intro o p ho hwidth hheight hp
    exact ⟨Layout.clip_lengthwise ho hp, Layout.encloses_clip hroots ho hwidth hheight hp⟩
  · intro g settings sizer l hsettings h
    by_cases hnodes : g.nodes = []
    · rw [layout_eq_emptyLayout hnodes h]
      exact Layout.determined_emptyLayout g settings
    · obtain ⟨-, ⟨hempty, -⟩ | ⟨sizes, arcs, hsizes, harcs, rfl⟩⟩ := layout_eq_ok h
      · exact absurd hempty hnodes
      · exact Layout.determined_arranged (Layout.sizes_isLength hsizes) hsettings
          hsizes.length_eq.symm harcs hroots hnodes

/-- An edge straight down. -/
def straight : Graph :=
  { directed := true
    nodes := ["a", "b"]
    edges := [⟨"a", "b", ∅⟩] }

theorem Settings.isDefined_standard : (standard : Settings (Checked K)).IsDefined where
  nodeSep := isDefined_ofNat 50
  rankSep := isDefined_ofNat 50
  edgeSep := isDefined_ofNat 20
  margin := isDefined_ofNat 20
  text := ⟨isDefined_ofNat 8, isDefined_ofNat 18, isDefined_ofNat 10, isDefined_ofNat 10⟩

theorem Graph.clipping_determined_straight :
    ExactRoots ℝ ∧ (Settings.standard : Settings (Checked ℝ)).IsDefined ∧
      (Layout.clip ⟨(⟨0, 0, 0, 2⟩ : Rect ℝ).checked, .box⟩ (⟨0, 5⟩ : Point ℝ).checked).y =
        .undefined ∧
      (⟨0, 0, 0, 2⟩ : Rect ℝ).checked.Encloses
        (Layout.clip ⟨(⟨0, 0, 0, 2⟩ : Rect ℝ).checked, .box⟩ (⟨5, 5⟩ : Point ℝ).checked) ∧
      ∃ l, straight.layout (.standard : Settings (Checked ℝ))
        (fun _ _ => (.defined 40, .defined 0)) = .ok l ∧ l.Determined := by
  obtain ⟨hclip, hlayout⟩ := Graph.clipping_determined exactRoots_real
  have hzero : Scalar.isLength (.defined 0 : Checked ℝ) = true := isLength_defined.mpr le_rfl
  have htwo : Scalar.isLength (.defined 2 : Checked ℝ) = true := isLength_defined.mpr two_pos.le
  have hforty : Scalar.isLength (.defined 40 : Checked ℝ) = true :=
    isLength_defined.mpr (by norm_num)
  have hbelow := hclip ⟨(⟨0, 0, 0, 2⟩ : Rect ℝ).checked, .box⟩ (⟨0, 5⟩ : Point ℝ).checked
    (Rect.isDefined_checked _) hzero htwo (Point.isDefined_checked _)
  have hbeside := hclip ⟨(⟨0, 0, 0, 2⟩ : Rect ℝ).checked, .box⟩ (⟨5, 5⟩ : Point ℝ).checked
    (Rect.isDefined_checked _) hzero htwo (Point.isDefined_checked _)
  have hcenter : (⟨0, 0, 0, 2⟩ : Rect ℝ).center = ⟨0, 1⟩ := by
    rw [Rect.center, Scalar.div_two, Scalar.div_two]
    norm_num [half]
  rw [Layout.lengthwise_checked, hcenter] at hbelow hbeside
  obtain ⟨l, hl⟩ := straight.exists_layout (.standard : Settings (Checked ℝ))
    (fun _ _ => (.defined 40, .defined 0)) rfl fun _ _ => ⟨hforty, hzero⟩
  refine ⟨exactRoots_real, Settings.isDefined_standard, hbelow.1 (by norm_num),
    (hbeside.2 (by norm_num)).2, l, hl, ?_⟩
  exact hlayout _ _ _ _ Settings.isDefined_standard hl

/-- Two points, one straight below the other, are joined by an edge that is undefined. -/
theorem Graph.layout_undefined_straight :
    ∃ l, straight.layout (.standard : Settings (Checked ℚ)) (fun _ _ => (0, 0)) = .ok l ∧
      ∃ e ∈ l.edges, ∃ p ∈ e.points, ¬p.IsDefined := by
  have hjoined : (Layout.layeredGraph straight [(0, 1)]).Joined :=
    Layering.Layered.joined_ofEdges (Layout.leadDown_downArcs (.cons rfl .nil))
  have hfirst : (Layout.layeredGraph straight [(0, 1)]).arrange = [[0], [1]] := by
    rw [Layering.Layered.arrange, Layering.Layered.trail,
      Layering.Layered.byRank_eq_range (by decide +kernel)]
    decide +kernel
  have hlayers : Layout.finalLayers straight [(0, 1)] = [[0], [1]] := by
    rw [Layout.finalLayers, Layering.Layered.minimize_of_crossings_eq_zero
      (Layering.Layered.crossings_arrange hjoined (by decide +kernel)), hfirst]
  have hrouted : ∃ e ∈ Layout.routedEdges straight (.standard : Settings (Checked ℚ))
      [(0, 0), (0, 0)] [(0, 1)], ∃ p ∈ e.points, ¬p.y.IsDefined := by
    unfold Layout.routedEdges Layout.placedNodes Layout.placedNode Layout.centreOf Layout.alongOf
    rw [hlayers]
    decide +kernel
  have hlayout : straight.layout (.standard : Settings (Checked ℚ)) (fun _ _ => (0, 0)) = .ok
      (Layout.arranged straight .standard [(0, 0), (0, 0)] [(0, 1)]) := rfl
  obtain ⟨dx, dy, -, hedges⟩ := Layout.exists_arranged_eq straight
    (.standard : Settings (Checked ℚ)) [(0, 0), (0, 0)] [(0, 1)]
  obtain ⟨x, hx, p, hp, hundefined⟩ := hrouted
  refine ⟨_, hlayout, x.shift dx dy, ?_, p.shift dx dy, List.mem_map_of_mem hp, ?_⟩
  · rw [hedges]
    exact List.mem_map_of_mem hx
  · exact fun h => hundefined (isDefined_add.mp h.2).1

end Tiered
