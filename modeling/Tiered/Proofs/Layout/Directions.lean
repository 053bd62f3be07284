import Tiered.Proofs.Layout.Symmetry.Frame

/-!
# The four directions are one drawing

* `placedNodes_target`, `routeEdge_target`: in another direction, nodes are placed and edges are
  routed symmetrically;
* `unframed_target`: so the drawing is the image of the first one before both are framed, and then
  it is afterwards (`layout_target`);
* `arrangement_layout`: ranks, places in them, turned edges and crossings do not depend on the
  direction at all.
-/

namespace Tiered

variable {K : Type} [Field K] [LinearOrder K] [FloorRing K] [PlaneFunctions K]

/-! ## Placing and routing -/

/-- The same settings for another direction. -/
def Settings.facing {L : Type} (settings : Settings L) (d : Direction) : Settings L :=
  { settings with direction := d }

namespace Layout

open Layering (Arc)

section Centres

variable {L : Type} (s : Symmetry) (settings : Settings L) (sizes : List (L × L))

theorem breadths_target :
    breadths (settings.facing s.target) (sizes.map s.size) =
      breadths (settings.facing s.source) sizes := by
  rw [breadths, breadths, List.map_map]
  cases s <;> rfl

theorem heights_target :
    heights (settings.facing s.target) (sizes.map s.size) =
      heights (settings.facing s.source) sizes := by
  rw [heights, heights, List.map_map]
  cases s <;> rfl

/-- Nodes and bends have the same places in their layers. -/
theorem centreOf_target [Scalar L] (g : Graph) (arcs : List Arc) :
    centreOf g (settings.facing s.target) (sizes.map s.size) arcs =
      centreOf g (settings.facing s.source) sizes arcs := by
  funext v
  simp only [centreOf, alongOf, acrossOf, breadths_target, heights_target]
  rfl

end Centres

variable [IsStrictOrderedRing K] (s : Symmetry) (settings : Settings K)

section Nodes

variable (g : Graph) (sizes : List (K × K)) (arcs : List Arc)

theorem placedNode_target (v : Nat) (id : String) (size : K × K) :
    placedNode g (settings.facing s.target) (sizes.map s.size) arcs v id (s.size size) =
      s.node .empty (placedNode g (settings.facing s.source) sizes arcs v id size) := by
  have hcentre := congrFun (centreOf_target s settings sizes g arcs) v
  have hrect : (placedNode g (settings.facing s.target) (sizes.map s.size) arcs v id
      (s.size size)).rect =
      s.rect .empty (placedNode g (settings.facing s.source) sizes arcs v id size).rect := by
    rw [rect_placedNode, rect_placedNode, hcentre]
    change Rect.centered (onScreen s.target _ _) _ _ = _
    rw [s.onScreen_target, ← s.rect_centered]
    rfl
  exact congrArg (fun rect => PlacedNode.mk _ rect _ _ _ _ _) hrect

theorem placedNodes_target :
    placedNodes g (settings.facing s.target) (sizes.map s.size) arcs =
      (placedNodes g (settings.facing s.source) sizes arcs).map (s.node .empty) := by
  refine List.ext_getElem (by simp [placedNodes]) fun v hv hv' => ?_
  simp only [placedNodes, List.getElem_map, List.getElem_mapIdx, List.getElem_zip]
  exact placedNode_target s settings g sizes arcs v _ _

end Nodes

section Edges

/-- Where the nodes of a drawing are met by edges. -/
def outlines {L : Type} [Scalar L] (nodes : List (PlacedNode L)) : Array (Outline L) :=
  (nodes.map (·.outline)).toArray

theorem getD_outlines {L : Type} [Scalar L] {nodes : List (PlacedNode L)} {v : Nat}
    (hv : v < nodes.length) (o : Outline L) : (outlines nodes).getD v o = nodes[v].outline :=
  outline_of_getElem? (List.getElem?_eq_getElem hv) o

/-- Everything about an edge is told by its route. -/
theorem routeEdge_eq {L : Type} [Scalar L] (settings : Settings L) (outlines : Array (Outline L))
    (centre : Nat → L × L) (plan : EdgePlan L) :
    routeEdge settings outlines centre plan =
      let points := (routeEdge settings outlines centre plan).points
      ⟨plan.edge.source, plan.edge.target, points, arrowhead points,
        plan.edge.labelLines?.map (placeLabel settings.text points), plan.reversed,
        plan.edge.attrs⟩ :=
  rfl

theorem ends_ne {L : Type} {plan : EdgePlan L} {chain : List Nat}
    (hloop : plan.chain = none ↔ plan.edge.source = plan.edge.target)
    (hchain : plan.chain = some chain) : (plan.edge.source == plan.edge.target) = false := by
  apply beq_false_of_ne
  intro heq
  rw [hloop.mpr heq] at hchain
  cases hchain

variable (hlengths : SymmetricLengths K) {nodes : List (PlacedNode K)}
  (hsizes : ∀ n ∈ nodes, 0 < n.rect.width ∧ 0 < n.rect.height) (centre : Nat → K × K)
  {plan : EdgePlan K} (hsource : plan.arc.1 < nodes.length) (htarget : plan.arc.2 < nodes.length)
  (hloop : plan.chain = none ↔ plan.edge.source = plan.edge.target)

include hsizes hsource htarget hloop

/-- Routes are symmetric. -/
theorem points_target :
    (routeEdge (settings.facing s.target) (outlines (nodes.map (s.node .empty))) centre
      plan).points =
      s.route .empty (plan.edge.source == plan.edge.target)
        (routeEdge (settings.facing s.source) (outlines nodes) centre plan).points := by
  have hgetD : ∀ {v : Nat} (hv : v < nodes.length) (o : Outline K),
      (outlines (nodes.map (s.node .empty))).getD v o =
        ⟨s.rect .empty nodes[v].rect, nodes[v].shape⟩ := by
    intro v hv o
    rw [getD_outlines (by simpa using hv), List.getElem_map]
    rfl
  have hclip : ∀ {v : Nat} (hv : v < nodes.length) (p : Point K),
      clip ⟨s.rect .empty nodes[v].rect, nodes[v].shape⟩ (s.point .empty p) =
        s.point .empty (clip nodes[v].outline p) := by
    intro v hv p
    obtain ⟨hwidth, hheight⟩ := hsizes _ (List.getElem_mem hv)
    exact clip_symmetry s .empty hwidth hheight _ p
  simp only [routeEdge, hgetD hsource, hgetD htarget, getD_outlines hsource,
    getD_outlines htarget]
  cases hchain : plan.chain with
  | none =>
    rw [beq_iff_eq.mpr (hloop.mp hchain)]
    exact selfLoop_symmetry s .empty _ _
  | some chain =>
    have hne := ends_ne hloop hchain
    rw [hne, Symmetry.route, Bool.and_false, if_neg Bool.false_ne_true,
      ← clipEnds_map _ (hclip hsource) (hclip htarget), List.map_map]
    simp only [Settings.facing, s.onScreen_target]
    rfl

include hlengths

/-- The middles of routes are symmetric. -/
theorem midpoint_target
    (hpoints : (routeEdge (settings.facing s.source) (outlines nodes) centre plan).points ≠ []) :
    midpoint (routeEdge (settings.facing s.target) (outlines (nodes.map (s.node .empty))) centre
      plan).points =
      s.point .empty
        (midpoint (routeEdge (settings.facing s.source) (outlines nodes) centre plan).points) := by
  cases hchain : plan.chain with
  | none =>
    obtain ⟨hwidth, hheight⟩ := hsizes _ (List.getElem_mem hsource)
    have himage : plan.arc.1 < (nodes.map (s.node .empty)).length := by simpa using hsource
    simp only [routeEdge, hchain, getD_outlines hsource, getD_outlines himage, List.getElem_map]
    exact midpoint_selfLoop_symmetry hlengths s .empty hwidth hheight _
  | some chain =>
    have hne := ends_ne hloop hchain
    rw [points_target s settings hsizes centre hsource htarget hloop, hne, Symmetry.route,
      Bool.and_false, if_neg Bool.false_ne_true,
      (rigid_symmetry hlengths s .empty).midpoint_map hpoints]

/-- An edge is routed symmetrically. What is said of labels is only said of flips. -/
theorem routeEdge_target (hlabel : s = .transpose → plan.edge.labelLines? = none)
    (hpoints : (routeEdge (settings.facing s.source) (outlines nodes) centre plan).points ≠ []) :
    routeEdge (settings.facing s.target) (outlines (nodes.map (s.node .empty))) centre plan =
      s.edge .empty (routeEdge (settings.facing s.source) (outlines nodes) centre plan) := by
  have hroute := points_target s settings hsizes centre hsource htarget hloop
  have hmiddle := midpoint_target s settings hlengths hsizes centre hsource htarget hloop hpoints
  have hlabels : plan.edge.labelLines?.map (placeLabel settings.text
      (routeEdge (settings.facing s.target) (outlines (nodes.map (s.node .empty))) centre
        plan).points) =
      (plan.edge.labelLines?.map (placeLabel settings.text
        (routeEdge (settings.facing s.source) (outlines nodes) centre plan).points)).map
        fun label => { label with rect := s.rect .empty label.rect } := by
    cases hlines : plan.edge.labelLines? with
    | none => rfl
    | some lines =>
      have hsize : ∀ size : K × K, s.size size = size := by
        intro size
        cases s with
        | flipY | flipX => rfl
        | transpose => exact absurd (hlabel rfl) (by simp [hlines])
      have hrect : ∀ size : K × K, Rect.centered (midpoint (routeEdge (settings.facing s.target)
          (outlines (nodes.map (s.node .empty))) centre plan).points) size.1 size.2 =
          s.rect .empty (.centered (midpoint (routeEdge (settings.facing s.source)
            (outlines nodes) centre plan).points) size.1 size.2) := by
        intro size
        rw [s.rect_centered, hsize, hmiddle]
      exact congrArg (fun rect => some (PlacedLabel.mk lines rect))
        (hrect ((settings.text.textSize lines).1 + settings.text.paddingX,
          (settings.text.textSize lines).2 + settings.text.paddingY))
  rw [routeEdge_eq (settings.facing s.target)]
  simp only [Settings.facing] at hlabels hroute ⊢
  rw [hlabels, hroute]
  rfl

end Edges

/-! ## Arranging -/

section Arranged

variable {g : Graph} {sizes : List (K × K)} {arcs : List Arc}

omit [IsStrictOrderedRing K] in
theorem placedNodes_pos (hsizes : ∀ size ∈ sizes, 0 < size.1 ∧ 0 < size.2) :
    ∀ n ∈ placedNodes g settings sizes arcs, 0 < n.rect.width ∧ 0 < n.rect.height := by
  intro n hn
  obtain ⟨v, hv, rfl⟩ := List.mem_iff_getElem.mp hn
  simp only [placedNodes, List.getElem_mapIdx, List.getElem_zip]
  exact hsizes _ (List.getElem_mem _)

omit [IsStrictOrderedRing K] in
/-- An edge is a loop if both its ends are one node. -/
theorem chain_plan_eq_none (harcs : List.Forall₂ (fun e arc => arcOf g e = .ok arc) g.edges arcs)
    {i : Nat} (hi : i < (plans g settings arcs).length) :
    (plans g settings arcs)[i].chain = none ↔
      (plans g settings arcs)[i].edge.source = (plans g settings arcs)[i].edge.target := by
  obtain ⟨he, ha, ht, hd⟩ := lt_of_lt_plans harcs.length_eq.symm hi
  obtain ⟨hedge, -, -⟩ := getElem_plans hi he ha ht
  obtain ⟨hsource, htarget, hsame⟩ := arcOf_eq_ok (getElem_arcs harcs he ha)
  have hbecomes := becomes_plan harcs hi hd
  have hdown := getElem_downArcs hd ha ht
  rw [hedge]
  by_cases hloop : arcs[i].1 = arcs[i].2
  · rw [if_pos hloop] at hdown
    rw [hdown] at hbecomes
    rw [hloop] at hsource
    exact iff_of_true hbecomes (Option.some.inj (hsource.symm.trans htarget))
  · obtain ⟨d, hd⟩ : ∃ d, (downArcs g arcs)[i] = some d := by
      rw [hdown, if_neg hloop]
      split <;> exact ⟨_, rfl⟩
    rw [hd] at hbecomes
    obtain ⟨chain, hchain, -⟩ := hbecomes
    exact iff_of_false (by simp [hchain]) fun heq => hloop (hsame heq)

variable (hlengths : SymmetricLengths K) (hsizes : ∀ size ∈ sizes, 0 < size.1 ∧ 0 < size.2)
  (hlength : sizes.length = g.nodes.length)
  (harcs : List.Forall₂ (fun e arc => arcOf g e = .ok arc) g.edges arcs)
  (hlabels : s = .transpose → ∀ e ∈ g.edges, e.labelLines? = none)

include hlengths hsizes hlength harcs hlabels

theorem routedEdges_target :
    routedEdges g (settings.facing s.target) (sizes.map s.size) arcs =
      (routedEdges g (settings.facing s.source) sizes arcs).map (s.edge .empty) := by
  have hplans : plans g (settings.facing s.target) arcs = plans g (settings.facing s.source) arcs :=
    rfl
  have hrouted : ∀ (settings : Settings K) (sizes : List (K × K)),
      routedEdges g settings sizes arcs = (plans g settings arcs).map (routeEdge settings
        (outlines (placedNodes g settings sizes arcs)) (centreOf g settings sizes arcs)) :=
    fun _ _ => rfl
  rw [hrouted, hrouted, placedNodes_target, centreOf_target, hplans, List.map_map]
  refine List.map_congr_left fun plan hplan => ?_
  obtain ⟨i, hi, rfl⟩ := List.mem_iff_getElem.mp hplan
  obtain ⟨he, ha, ht, -⟩ := lt_of_lt_plans harcs.length_eq.symm hi
  obtain ⟨hedge, harc, -⟩ := getElem_plans hi he ha ht
  obtain ⟨hsource, htarget⟩ := arcs_lt harcs (List.getElem_mem ha)
  have hnodes : (placedNodes g (settings.facing s.source) sizes arcs).length = g.nodes.length := by
    simp [placedNodes, hlength]
  refine routeEdge_target s settings hlengths (placedNodes_pos _ hsizes) _ ?_ ?_
    (chain_plan_eq_none _ harcs hi) ?_ ?_
  · rw [harc, hnodes]
    exact hsource
  · rw [harc, hnodes]
    exact htarget
  · intro hs
    rw [hedge]
    exact hlabels hs _ (List.getElem_mem he)
  · exact points_ne_nil harcs (List.mem_map_of_mem hplan)

theorem unframed_target :
    unframed g (settings.facing s.target) (sizes.map s.size) arcs =
      s.layout (unframed g (settings.facing s.source) sizes arcs) := by
  have hnodes := placedNodes_target s settings g sizes arcs
  have hedges := routedEdges_target s settings hlengths hsizes hlength harcs hlabels
  have hempty : (Box.empty : Box K) = s.box .empty := by cases s <;> rfl
  have hunframed : ∀ (settings : Settings K) (sizes : List (K × K)),
      unframed g settings sizes arcs =
        ⟨placedNodes g settings sizes arcs, routedEdges g settings sizes arcs, .empty,
          settings.direction, ((layeredGraph g arcs).minimize (layeredGraph g arcs).arrange).2,
          g.directed⟩ := fun _ _ => rfl
  rw [hunframed, hunframed, hnodes, hedges]
  exact congrArg (Layout.mk _ _ · _ _ _) hempty

end Arranged

/-! ## Layouts -/

section Sizes

variable {g : Graph} {sizer : Sizer K}

/-- The sizes of all nodes. -/
def sizesOf {L : Type} (g : Graph) (sizer : Sizer L) : List (L × L) :=
  g.nodes.map fun id => sizer id (g.labelLines id)

/-- All sizes are positive. -/
def Fills (sizer : Sizer K) (g : Graph) : Prop :=
  ∀ id ∈ g.nodes, 0 < (sizer id (g.labelLines id)).1 ∧ 0 < (sizer id (g.labelLines id)).2

omit [FloorRing K] [PlaneFunctions K] [IsStrictOrderedRing K] in
theorem Fills.pos (h : Fills sizer g) : ∀ size ∈ sizesOf g sizer, 0 < size.1 ∧ 0 < size.2 := by
  intro size hsize
  obtain ⟨id, hid, rfl⟩ := List.mem_map.mp hsize
  exact h id hid

omit [IsStrictOrderedRing K] in
theorem Fills.mapM_sizeOf (h : Fills sizer g) :
    g.nodes.mapM (sizeOf g sizer) = .ok (sizesOf g sizer) := by
  have hids : ∀ ids : List String, (∀ id ∈ ids, id ∈ g.nodes) →
      ids.mapM (sizeOf g sizer) = .ok (ids.map fun id => sizer id (g.labelLines id)) := by
    intro ids hids
    induction ids with
    | nil => rfl
    | cons id rest ih =>
      obtain ⟨hwidth, hheight⟩ := h id (hids id List.mem_cons_self)
      have hsize :=
        sizeOf_ok ⟨Scalar.isLength_iff.mpr hwidth.le, Scalar.isLength_iff.mpr hheight.le⟩
      rw [List.mapM_cons, hsize, ih fun id hid => hids id (List.mem_cons_of_mem _ hid)]
      rfl
  exact hids g.nodes fun _ hid => hid

end Sizes

/-- What does not depend on where things are drawn. -/
structure Arrangement where
  /-- The nodes with their ranks and their places in them. -/
  nodes : List (String × Nat × Nat)
  /-- Which edges are turned around. -/
  reversed : List Bool
  crossings : Nat

def arrangement {L : Type} (l : Layout L) : Arrangement :=
  ⟨l.nodes.map fun n => (n.id, n.rank, n.order), l.edges.map (·.reversed), l.crossings⟩

/-- Neither directions nor sizes have a part in the arrangement. -/
theorem arrangement_arranged {L : Type} [Scalar L] {g : Graph} (settings : Settings L)
    {sizes sizes' : List (L × L)} (arcs : List Arc) (d d' : Direction)
    (hlength : sizes.length = g.nodes.length) (hlength' : sizes'.length = g.nodes.length) :
    (arranged g (settings.facing d) sizes arcs).arrangement =
      (arranged g (settings.facing d') sizes' arcs).arrangement := by
  have hnodes : ∀ (d : Direction) {sizes : List (L × L)}, sizes.length = g.nodes.length →
      (arranged g (settings.facing d) sizes arcs).nodes.map (fun n => (n.id, n.rank, n.order)) =
        g.nodes.mapIdx fun v id => (id, (nodeRanks g arcs).getD v 0,
          ((layeredGraph g arcs).places (finalLayers g arcs)).getD v 0) := by
    intro d sizes hlength
    obtain ⟨dx, dy, hget⟩ := exists_getElem_nodes g (settings.facing d) sizes arcs
    have hcount := length_arranged_nodes (settings.facing d) arcs hlength
    refine List.ext_getElem (by simp [hcount]) fun v hv hv' => ?_
    have hg : v < g.nodes.length := by simpa using hv'
    rw [List.getElem_map, List.getElem_mapIdx, hget v (hcount ▸ hg) hg (hlength ▸ hg)]
    rfl
  have hreversed : ∀ (d : Direction) (sizes : List (L × L)),
      (arranged g (settings.facing d) sizes arcs).edges.map (·.reversed) =
        (plans g settings arcs).map (·.reversed) := by
    intro d sizes
    obtain ⟨dx, dy, -, hedges⟩ := exists_arranged_eq g (settings.facing d) sizes arcs
    rw [hedges, routedEdges, List.map_map, List.map_map]
    rfl
  have hcrossings : ∀ (d : Direction) (sizes : List (L × L)),
      (arranged g (settings.facing d) sizes arcs).crossings =
        ((layeredGraph g arcs).minimize (layeredGraph g arcs).arrange).2 := by
    intro d sizes
    rw [arranged_eq]
    rfl
  rw [arrangement, arrangement, hnodes d hlength, hnodes d' hlength', hreversed, hreversed,
    hcrossings, hcrossings]

end Layout

namespace Graph

variable {g : Graph} {settings : Settings K} {sizer : Sizer K}

/-- There are three kinds of layouts of nodes that have sizes. Which it is depends on the graph. -/
theorem layout_cases (g : Graph) :
    (∃ e, ∀ (settings : Settings K) (sizer : Sizer K), g.layout settings sizer = .error e) ∨
    (∀ (settings : Settings K) (sizer : Sizer K),
      g.layout settings sizer = .ok (g.emptyLayout settings)) ∨
    (g.nodes ≠ [] ∧ ∃ arcs, List.Forall₂ (fun e arc => Layout.arcOf g e = .ok arc) g.edges arcs ∧
      ∀ (settings : Settings K) (sizer : Sizer K), Layout.Fills sizer g →
        g.layout settings sizer =
          .ok (Layout.arranged g settings (Layout.sizesOf g sizer) arcs)) := by
  cases hknown : g.unknownNode? with
  | some e =>
    refine .inl ⟨.unknownNode e.id, fun settings sizer => ?_⟩
    unfold layout
    rw [hknown]
    rfl
  | none =>
    refine .inr ?_
    by_cases hnodes : g.nodes = []
    · refine .inl fun settings sizer => ?_
      unfold layout
      rw [hknown, hnodes]
      rfl
    · obtain ⟨arcs, harcs⟩ := Layout.exists_mapM_eq_ok fun e he =>
        Layout.exists_arcOf_eq_ok (unknownNode?_eq_none.mp hknown e he)
      refine .inr ⟨hnodes, arcs, Layout.mapM_eq_ok harcs, fun settings sizer hsizer => ?_⟩
      unfold layout
      rw [hknown]
      dsimp only
      rw [if_neg (by simpa using hnodes), hsizer.mapM_sizeOf, harcs]
      rfl

/-- The arrangement is the same in all directions. -/
theorem arrangement_layout {sizer' : Sizer K} (hsizer : Layout.Fills sizer g)
    (hsizer' : Layout.Fills sizer' g) (d d' : Direction) :
    (g.layout (settings.facing d) sizer).map (·.arrangement) =
      (g.layout (settings.facing d') sizer').map (·.arrangement) := by
  rcases g.layout_cases (K := K) with ⟨e, herror⟩ | hempty | ⟨-, arcs, -, harranged⟩
  · rw [herror, herror]
  · rw [hempty, hempty]
    rfl
  · rw [harranged _ _ hsizer, harranged _ _ hsizer']
    have hsame := Layout.arrangement_arranged settings arcs d d'
      (List.length_map _ : (Layout.sizesOf g sizer).length = _)
      (List.length_map _ : (Layout.sizesOf g sizer').length = _)
    exact congrArg Except.ok hsame

variable [IsStrictOrderedRing K]

/-- A layout in another direction is the image of the first one. -/
theorem layout_target (hlengths : SymmetricLengths K) (hsizer : Layout.Fills sizer g)
    (s : Symmetry) (hlabels : s = .transpose → ∀ e ∈ g.edges, e.labelLines? = none) :
    g.layout (settings.facing s.target) (fun id lines => s.size (sizer id lines)) =
      (g.layout (settings.facing s.source) sizer).map s.layout := by
  have himage : Layout.Fills (fun id lines => s.size (sizer id lines)) g := by
    intro id hid
    obtain ⟨hwidth, hheight⟩ := hsizer id hid
    cases s with
    | flipY | flipX => exact ⟨hwidth, hheight⟩
    | transpose => exact ⟨hheight, hwidth⟩
  have hsizes : Layout.sizesOf g (fun id lines => s.size (sizer id lines)) =
      (Layout.sizesOf g sizer).map s.size := by
    rw [Layout.sizesOf, Layout.sizesOf, List.map_map]
    rfl
  rcases g.layout_cases (K := K) with ⟨e, herror⟩ | hempty | ⟨hnodes, arcs, harcs, harranged⟩
  · rw [herror, herror]
    rfl
  · rw [hempty, hempty]
    cases s <;> rfl
  · have hlength : (Layout.sizesOf g sizer).length = g.nodes.length := List.length_map _
    have htarget := Layout.unframed_target s settings hlengths hsizer.pos hlength harcs hlabels
    have hpoints : ∀ e ∈ (Layout.unframed g (settings.facing s.source) (Layout.sizesOf g sizer)
        arcs).edges, e.points ≠ [] := fun e he => Layout.points_ne_nil harcs he
    have hframe := Symmetry.frame_layout s settings.margin
      (Layout.extent_unframed_ne_nil hnodes hlength) hpoints
    rw [harranged _ _ himage, harranged _ _ hsizer, hsizes, Layout.arranged_eq, Layout.arranged_eq,
      htarget]
    exact congrArg Except.ok hframe

end Graph

/-- **The four directions are one drawing.** From bottom to top, a graph is drawn as from top to
bottom, flipped within the same box; from right to left, as from left to right. Without labels on
edges, the drawing from left to right of nodes on their sides is the one from top to bottom with its
axes exchanged. Ranks, places in them, turned edges and crossings are always the same. -/
theorem Graph.layout_directions [IsStrictOrderedRing K] (hlengths : SymmetricLengths K) {g : Graph}
    {settings : Settings K} {sizer : Sizer K} (hsizer : Layout.Fills sizer g) :
    g.layout (settings.facing .bottomTop) sizer =
        (g.layout (settings.facing .topBottom) sizer).map Symmetry.flipY.layout ∧
      g.layout (settings.facing .rightLeft) sizer =
        (g.layout (settings.facing .leftRight) sizer).map Symmetry.flipX.layout ∧
      ((∀ e ∈ g.edges, e.labelLines? = none) →
        g.layout (settings.facing .leftRight) (fun id lines => (sizer id lines).swap) =
          (g.layout (settings.facing .topBottom) sizer).map Symmetry.transpose.layout) ∧
      ∀ (sizer' : Sizer K) (d d' : Direction), Layout.Fills sizer' g →
        (g.layout (settings.facing d) sizer).map (·.arrangement) =
          (g.layout (settings.facing d') sizer').map (·.arrangement) := by
  have hflip : ∀ {s : Symmetry}, s ≠ .transpose →
      s = .transpose → ∀ e ∈ g.edges, e.labelLines? = none := fun hne hs => absurd hs hne
  refine ⟨?_, ?_, fun hlabels => ?_, fun sizer' d d' hsizer' => ?_⟩
  · exact Graph.layout_target hlengths hsizer .flipY (hflip (by decide))
  · exact Graph.layout_target hlengths hsizer .flipX (hflip (by decide))
  · exact Graph.layout_target hlengths hsizer .transpose fun _ => hlabels
  · exact Graph.arrangement_layout hsizer hsizer' d d'

theorem symmetricLengths_real : SymmetricLengths ℝ where
  swap x y := congrArg Real.sqrt (add_comm _ _)
  neg x y := by
    change Real.sqrt (-x * -x + y * y) = Real.sqrt (x * x + y * y)
    rw [neg_mul_neg]
  pos x y hne := by
    refine Real.sqrt_pos.mpr ?_
    rcases hne with hx | hy
    · exact add_pos_of_pos_of_nonneg (mul_self_pos.mpr hx) (mul_self_nonneg y)
    · exact add_pos_of_nonneg_of_pos (mul_self_nonneg x) (mul_self_pos.mpr hy)

/-- An edge with a label and a loop are flipped, and edges between four shapes are transposed. -/
theorem Graph.layout_directions_shapes :
    SymmetricLengths ℝ ∧
      Layout.Fills (fun _ _ => ((40 : ℝ), (20 : ℝ))) labelledEdge ∧
      Layout.Fills (fun _ _ => ((40 : ℝ), (20 : ℝ))) shapes ∧
      (∃ l : Layout ℝ,
        labelledEdge.layout (Settings.standard.facing .topBottom) (fun _ _ => (40, 20)) = .ok l ∧
        labelledEdge.layout (Settings.standard.facing .bottomTop) (fun _ _ => (40, 20)) =
          .ok (Symmetry.flipY.layout l)) ∧
      (∃ l : Layout ℝ,
        labelledEdge.layout (Settings.standard.facing .leftRight) (fun _ _ => (40, 20)) = .ok l ∧
        labelledEdge.layout (Settings.standard.facing .rightLeft) (fun _ _ => (40, 20)) =
          .ok (Symmetry.flipX.layout l)) ∧
      ∃ l k : Layout ℝ,
        shapes.layout (Settings.standard.facing .topBottom) (fun _ _ => (40, 20)) = .ok l ∧
        shapes.layout (Settings.standard.facing .leftRight) (fun _ _ => (20, 40)) =
          .ok (Symmetry.transpose.layout l) ∧
        shapes.layout (Settings.standard.facing .rightLeft) (fun _ _ => (20, 40)) = .ok k ∧
        l.arrangement = k.arrangement := by
  have hfills : ∀ (g : Graph) {w h : ℝ}, 0 < w → 0 < h → Layout.Fills (fun _ _ => (w, h)) g :=
    fun g w h hw hh _ _ => ⟨hw, hh⟩
  have hexists : ∀ (g : Graph) (settings : Settings ℝ) {w h : ℝ}, 0 < w → 0 < h →
      g.unknownNode? = none → ∃ l, g.layout settings (fun _ _ => (w, h)) = .ok l :=
    fun g settings w h hw hh hknown => g.exists_layout settings _ hknown
      fun _ _ => ⟨Scalar.isLength_iff.mpr hw.le, Scalar.isLength_iff.mpr hh.le⟩
  have hwide : (0 : ℝ) < 40 := by norm_num
  have hhigh : (0 : ℝ) < 20 := by norm_num
  have hedge := hfills labelledEdge hwide hhigh
  have hshapes := hfills shapes hwide hhigh
  have hturned := hfills shapes hhigh hwide
  obtain ⟨l, hl⟩ := hexists labelledEdge (Settings.standard.facing .topBottom) hwide hhigh rfl
  obtain ⟨k, hk⟩ := hexists labelledEdge (Settings.standard.facing .leftRight) hwide hhigh rfl
  obtain ⟨m, hm⟩ := hexists shapes (Settings.standard.facing .topBottom) hwide hhigh rfl
  obtain ⟨n, hn⟩ := hexists shapes (Settings.standard.facing .rightLeft) hhigh hwide rfl
  refine ⟨symmetricLengths_real, hedge, hshapes, ⟨l, hl, ?_⟩, ⟨k, hk, ?_⟩, m, n, hm, ?_, hn, ?_⟩
  · rw [(Graph.layout_directions symmetricLengths_real hedge).1, hl]
    rfl
  · rw [(Graph.layout_directions symmetricLengths_real hedge).2.1, hk]
    rfl
  · have hlabels : ∀ e ∈ shapes.edges, e.labelLines? = none := by decide
    obtain ⟨-, -, htranspose, -⟩ := Graph.layout_directions symmetricLengths_real hshapes
    have himage := htranspose hlabels
    rw [hm] at himage
    exact himage
  · obtain ⟨-, -, -, hsame⟩ := Graph.layout_directions symmetricLengths_real hshapes
    have harrangement := hsame _ .topBottom .rightLeft hturned
    rw [hm, hn] at harrangement
    exact Except.ok.inj harrangement

end Tiered
