import Mathlib.Data.List.Forall2
import Tiered.Layout.OfGraph
import Tiered.Proofs.Graph
import Tiered.Proofs.Layering.Ordering
import Tiered.Proofs.Layering.Ranking

/-!
# The stages of a layout

A layout that succeeds is the empty one or an arrangement of nodes whose sizes are lengths
(`layout_eq_ok`). The intermediate results of an arrangement get names here, from which it is put
together again in `arranged_eq`. All this holds in whatever arithmetic the layout runs.
-/

namespace Tiered

/-- The edge that was routed. -/
def RoutedEdge.edge {K : Type} (e : RoutedEdge K) : Edge := ⟨e.source, e.target, e.attrs⟩

namespace Layout

open Layering (Arc Layered Layers feedback ranking)

variable {K : Type} [Scalar K]

/-! ## Stages -/

section Stages

variable (g : Graph) (settings : Settings K) (sizes : List (K × K)) (arcs : List Arc)

/-- Which edges are turned around. -/
def turned : List Bool := feedback g.nodes.length arcs

/-- The arcs of the edges after turning, which lead down. -/
def downArcs : List (Option Arc) := oriented arcs (turned g arcs)

def nodeRanks : Array Nat :=
  ranking g.nodes.length (spans (downArcs g arcs) (g.edges.map fun e => spanOf (e.attr? "minlen")))

def layeredGraph : Layered := .ofEdges (nodeRanks g arcs) (downArcs g arcs)

def finalLayers : Layers := ((layeredGraph g arcs).minimize (layeredGraph g arcs).arrange).1

/-- The extents of the nodes along the layers. -/
def breadths : Array K :=
  (sizes.map fun s => if settings.direction.isHorizontal then s.2 else s.1).toArray

/-- The extents of the nodes from rank to rank. -/
def heights : Array K :=
  (sizes.map fun s => if settings.direction.isHorizontal then s.1 else s.2).toArray

/-- Where the centre of a node is along the layers. -/
def alongOf (v : Nat) : K :=
  (alongLayers (layeredGraph g arcs) (finalLayers g arcs) (breadths settings sizes)
    ⟨settings.nodeSep, settings.edgeSep⟩).getD v 0

/-- Where the centre of a node is from rank to rank. -/
def acrossOf (v : Nat) : K :=
  (acrossLayers (layeredGraph g arcs) (heights settings sizes) settings.rankSep).getD v 0

/-- The node with this number before the drawing is framed. -/
def placedNode (v : Nat) (id : String) (size : K × K) : PlacedNode K :=
  { id
    rect := .centered
      (onScreen settings.direction (alongOf g settings sizes arcs v)
        (acrossOf g settings sizes arcs v)) size.1 size.2
    rank := (nodeRanks g arcs).getD v 0
    order := ((layeredGraph g arcs).places (finalLayers g arcs)).getD v 0
    lines := g.labelLines id
    shape := g.shape id
    attrs := (g.nodeAttrs.get? id).getD ∅ }

/-- How far each edge is bent to the side. -/
def bends : List K :=
  let short := shortArcs (downArcs g arcs) (layeredGraph g arcs).chains
  spread settings.edgeSep short [] short

/-- What is known of each edge before it is routed. -/
def plans : List (EdgePlan K) :=
  (g.edges.zip (arcs.zip ((layeredGraph g arcs).chains.zip ((turned g arcs).zip
    ((bends g settings arcs).zip (loopsBefore arcs)))))).map
      fun (edge, arc, chain, reversed, bend, loops) => { edge, arc, chain, reversed, bend, loops }

/-- The layout before it is framed. -/
def unframed : Layout K :=
  let nodes := (g.nodes.zip sizes).mapIdx fun v e => placedNode g settings sizes arcs v e.1 e.2
  let outlines := (nodes.map (·.outline)).toArray
  let centre (v : Nat) : K × K :=
    (alongOf g settings sizes arcs v, acrossOf g settings sizes arcs v)
  { nodes
    edges := (plans g settings arcs).map (routeEdge settings outlines centre)
    box := .empty
    direction := settings.direction
    crossings := ((layeredGraph g arcs).minimize (layeredGraph g arcs).arrange).2
    directed := g.directed }

theorem arranged_eq :
    arranged g settings sizes arcs = frame settings.margin (unframed g settings sizes arcs) := by
  simp only [unframed, plans, List.map_map]
  rfl

/-- The centre of a node before the drawing is framed. -/
def centreOf (v : Nat) : K × K :=
  (alongOf g settings sizes arcs v, acrossOf g settings sizes arcs v)

theorem rect_placedNode (v : Nat) (id : String) (size : K × K) :
    (placedNode g settings sizes arcs v id size).rect =
      .centered (onScreen settings.direction (centreOf g settings sizes arcs v).1
        (centreOf g settings sizes arcs v).2) size.1 size.2 := by
  rw [centreOf]
  rfl

/-- The nodes before the drawing is framed. -/
def placedNodes : List (PlacedNode K) :=
  (g.nodes.zip sizes).mapIdx fun v e => placedNode g settings sizes arcs v e.1 e.2

/-- The edges before the drawing is framed. -/
def routedEdges : List (RoutedEdge K) :=
  (plans g settings arcs).map (routeEdge settings
    ((placedNodes g settings sizes arcs).map (·.outline)).toArray (centreOf g settings sizes arcs))

/-- The frame moves nodes and edges by one distance. -/
theorem exists_arranged_eq : ∃ dx dy : K,
    (arranged g settings sizes arcs).nodes =
      (placedNodes g settings sizes arcs).map (·.shift dx dy) ∧
    (arranged g settings sizes arcs).edges =
      (routedEdges g settings sizes arcs).map (·.shift dx dy) := by
  rw [arranged_eq]
  exact ⟨_, _, rfl, rfl⟩

end Stages

/-! ## The layers of a layout -/

section Layers

variable {g : Graph} {arcs : List Arc}

theorem complete_finalLayers (g : Graph) (arcs : List Arc) :
    (layeredGraph g arcs).Complete (finalLayers g arcs) :=
  (Layered.complete_arrange _).minimize

theorem size_nodeRanks (g : Graph) (arcs : List Arc) : (nodeRanks g arcs).size = g.nodes.length :=
  Layering.size_ranking _ _

theorem lt_size_layeredGraph (arcs : List Arc) {v : Nat} (hv : v < g.nodes.length) :
    v < (layeredGraph g arcs).size := by
  have := Layered.real_le_size (nodeRanks g arcs) (downArcs g arcs)
  rw [size_nodeRanks] at this
  exact Nat.lt_of_lt_of_le hv this

theorem rankOf_layeredGraph {v : Nat} (hv : v < g.nodes.length) :
    (layeredGraph g arcs).rankOf v = (nodeRanks g arcs).getD v 0 :=
  Layered.rankOf_real (by rwa [size_nodeRanks])

theorem isVirtual_layeredGraph {v : Nat} (hv : v < g.nodes.length) :
    (layeredGraph g arcs).isVirtual v = false :=
  Layered.isVirtual_real (by rwa [size_nodeRanks])

/-- Nodes of one rank have places that differ. -/
theorem place_ne (arcs : List Arc) {v w : Nat} (hv : v < g.nodes.length)
    (hw : w < g.nodes.length) (hvw : v ≠ w)
    (hrank : (nodeRanks g arcs).getD v 0 = (nodeRanks g arcs).getD w 0) :
    ((layeredGraph g arcs).places (finalLayers g arcs)).getD v 0 ≠
      ((layeredGraph g arcs).places (finalLayers g arcs)).getD w 0 := by
  rw [← rankOf_layeredGraph hv, ← rankOf_layeredGraph hw] at hrank
  exact Layered.places_ne (complete_finalLayers g arcs) (lt_size_layeredGraph arcs hv)
    (lt_size_layeredGraph arcs hw) hvw hrank

end Layers

/-! ## Sizes along the axes -/

section Sizes

variable {settings : Settings K} {sizes : List (K × K)} {v : Nat}

omit [Scalar K] in
theorem getD_breadths (hv : v < sizes.length) (d : K) :
    (breadths settings sizes).getD v d =
      if settings.direction.isHorizontal then sizes[v].2 else sizes[v].1 := by
  rw [breadths, getD_of_lt (by simpa using hv)]
  simp

omit [Scalar K] in
theorem getD_heights (hv : v < sizes.length) (d : K) :
    (heights settings sizes).getD v d =
      if settings.direction.isHorizontal then sizes[v].1 else sizes[v].2 := by
  rw [heights, getD_of_lt (by simpa using hv)]
  simp

end Sizes

/-! ## Each node is placed -/

section Nodes

variable {g : Graph} {settings : Settings K} {sizes : List (K × K)} {arcs : List Arc}

theorem length_arranged_nodes (settings : Settings K) (arcs : List Arc)
    (hsizes : sizes.length = g.nodes.length) :
    (arranged g settings sizes arcs).nodes.length = g.nodes.length := by
  rw [arranged_eq]
  simp [frame, unframed, hsizes]

/-- The whole drawing is moved by one distance. -/
theorem exists_getElem_nodes (g : Graph) (settings : Settings K) (sizes : List (K × K))
    (arcs : List Arc) : ∃ dx dy : K, ∀ v (hn : v < (arranged g settings sizes arcs).nodes.length)
      (hg : v < g.nodes.length) (hs : v < sizes.length),
      (arranged g settings sizes arcs).nodes[v] =
        (placedNode g settings sizes arcs v g.nodes[v] sizes[v]).shift dx dy := by
  rw [arranged_eq]
  generalize hbox : Box.around (extent (unframed g settings sizes arcs).nodes
    (unframed g settings sizes arcs).edges) = box
  refine ⟨settings.margin - box.minX, settings.margin - box.minY, ?_⟩
  intro v hn hg hs
  simp only [frame, hbox, List.getElem_map]
  simp only [unframed, List.getElem_mapIdx, List.getElem_zip]

theorem ids_arranged (settings : Settings K) (arcs : List Arc)
    (hsizes : sizes.length = g.nodes.length) :
    (arranged g settings sizes arcs).nodes.map (·.id) = g.nodes := by
  obtain ⟨dx, dy, hget⟩ := exists_getElem_nodes g settings sizes arcs
  have hlength := length_arranged_nodes settings arcs hsizes
  refine List.ext_getElem (by rw [List.length_map, hlength]) ?_
  intro v hv hg
  rw [List.getElem_map, hget v (hlength ▸ hg) hg (hsizes ▸ hg)]
  rfl

/-- The node with a number has its id and its rank. -/
theorem exists_node (settings : Settings K) (arcs : List Arc)
    (hsizes : sizes.length = g.nodes.length) {v : Nat} {id : String}
    (hv : g.nodes[v]? = some id) :
    ∃ a ∈ (arranged g settings sizes arcs).nodes,
      a.id = id ∧ a.rank = (nodeRanks g arcs).getD v 0 := by
  obtain ⟨hg, rfl⟩ := List.getElem?_eq_some_iff.mp hv
  obtain ⟨dx, dy, hget⟩ := exists_getElem_nodes g settings sizes arcs
  have hn : v < (arranged g settings sizes arcs).nodes.length := by
    rwa [length_arranged_nodes settings arcs hsizes]
  refine ⟨_, List.getElem_mem hn, ?_⟩
  rw [hget v hn hg (hsizes ▸ hg)]
  exact ⟨rfl, rfl⟩

end Nodes

/-! ## Each edge has its plan -/

theorem length_spread (edgeSep : K) (all earlier arcs : List (Option Arc)) :
    (spread edgeSep all earlier arcs).length = arcs.length := by
  induction arcs generalizing earlier with
  | nil => rfl
  | cons arc rest ih => cases arc <;> simp only [spread, List.length_cons, ih]

theorem length_loopsBefore (arcs : List Arc) : (loopsBefore arcs).length = arcs.length := by
  have hgo : ∀ loops, (loopsBefore.go loops arcs).length = arcs.length := by
    induction arcs with
    | nil => exact fun _ => rfl
    | cons arc rest ih =>
      intro loops
      simp only [loopsBefore.go]
      split <;> simp only [List.length_cons, ih]
  exact hgo []

theorem length_feedback (n : Nat) (arcs : List Arc) : (feedback n arcs).length = arcs.length :=
  List.length_map _

theorem length_downArcs (g : Graph) (arcs : List Arc) :
    (downArcs g arcs).length = arcs.length := by
  simp [downArcs, oriented, turned, length_feedback]

section Plans

variable {g : Graph} {settings : Settings K} {sizes : List (K × K)} {arcs : List Arc}

theorem length_bends : (bends g settings arcs).length = arcs.length := by
  simp [bends, length_spread, shortArcs, length_downArcs, layeredGraph, Layered.length_chains]

theorem length_plans (harcs : arcs.length = g.edges.length) :
    (plans g settings arcs).length = g.edges.length := by
  simp [plans, harcs, layeredGraph, Layered.length_chains, length_downArcs, turned,
    length_feedback, length_bends, length_loopsBefore]

/-- All stages have something to say of each plan. -/
theorem lt_of_lt_plans (harcs : arcs.length = g.edges.length) {i : Nat}
    (hi : i < (plans g settings arcs).length) :
    i < g.edges.length ∧ i < arcs.length ∧ i < (turned g arcs).length ∧
      i < (downArcs g arcs).length := by
  rw [length_plans harcs] at hi
  rw [turned, length_feedback, length_downArcs, harcs]
  exact ⟨hi, hi, hi, hi⟩

theorem length_routedEdges :
    (routedEdges g settings sizes arcs).length = (plans g settings arcs).length :=
  List.length_map _

/-- Each edge is routed by its plan. -/
theorem getElem_routedEdges_eq {i : Nat} (hi : i < (routedEdges g settings sizes arcs).length)
    (hp : i < (plans g settings arcs).length) :
    (routedEdges g settings sizes arcs)[i] = routeEdge settings
      ((placedNodes g settings sizes arcs).map (·.outline)).toArray
      (centreOf g settings sizes arcs) (plans g settings arcs)[i] :=
  List.getElem_map _

omit [Scalar K] in
/-- The outline of a node is read at its number. -/
theorem outline_of_getElem? {nodes : List (PlacedNode K)} {v : Nat} {n : PlacedNode K}
    (h : nodes[v]? = some n) (o : Outline K) :
    (nodes.map (·.outline)).toArray.getD v o = n.outline := by
  rw [Array.getD_eq_getD_getElem?, List.getElem?_toArray, List.getElem?_map, h]
  rfl

theorem getElem_plans {i : Nat} (hi : i < (plans g settings arcs).length)
    (he : i < g.edges.length) (ha : i < arcs.length) (ht : i < (turned g arcs).length) :
    (plans g settings arcs)[i].edge = g.edges[i] ∧ (plans g settings arcs)[i].arc = arcs[i] ∧
      (plans g settings arcs)[i].reversed = (turned g arcs)[i] := by
  simp [plans]

/-- A routed edge keeps its ends, and its arrowhead is the one of its route. -/
theorem getElem_routedEdges {i : Nat} (hi : i < (routedEdges g settings sizes arcs).length)
    (he : i < g.edges.length) (ha : i < arcs.length) :
    (routedEdges g settings sizes arcs)[i].source = g.edges[i].source ∧
      (routedEdges g settings sizes arcs)[i].target = g.edges[i].target ∧
      (routedEdges g settings sizes arcs)[i].arrowhead =
        arrowhead (routedEdges g settings sizes arcs)[i].points := by
  have hp : i < (plans g settings arcs).length := by rwa [length_routedEdges] at hi
  obtain ⟨hedge, -, -⟩ := getElem_plans hp he ha (by rwa [turned, length_feedback])
  rw [getElem_routedEdges_eq hi hp, ← hedge]
  exact ⟨rfl, rfl, rfl⟩

theorem length_arranged_edges (settings : Settings K) (sizes : List (K × K))
    (harcs : arcs.length = g.edges.length) :
    (arranged g settings sizes arcs).edges.length = g.edges.length := by
  rw [arranged_eq]
  simp [frame, unframed, length_plans harcs]

/-- Routing changes neither the edge nor whether it is turned around. -/
theorem getElem_arranged_edges {i : Nat}
    (hi : i < (arranged g settings sizes arcs).edges.length) (he : i < g.edges.length)
    (ha : i < arcs.length) (ht : i < (turned g arcs).length) :
    (arranged g settings sizes arcs).edges[i].edge = g.edges[i] ∧
      (arranged g settings sizes arcs).edges[i].reversed = (turned g arcs)[i] := by
  simp only [arranged_eq, frame, unframed, List.length_map] at hi
  obtain ⟨hedge, -, hreversed⟩ := getElem_plans hi he ha ht
  simp only [arranged_eq, frame, unframed, List.getElem_map]
  exact ⟨hedge, hreversed⟩

theorem edges_arranged (harcs : arcs.length = g.edges.length) :
    (arranged g settings sizes arcs).edges.map (·.edge) = g.edges := by
  have hlength := length_arranged_edges settings sizes harcs
  refine List.ext_getElem (by rw [List.length_map, hlength]) ?_
  intro i hi he
  rw [List.getElem_map]
  exact (getElem_arranged_edges (hlength ▸ he) he (harcs ▸ he)
    (by rw [turned, length_feedback, harcs]; exact he)).1

/-- Each routed edge is one of the graph. -/
theorem exists_of_mem_edges (harcs : arcs.length = g.edges.length) {e : RoutedEdge K}
    (h : e ∈ (arranged g settings sizes arcs).edges) :
    ∃ i, ∃ he : i < g.edges.length, ∃ _ha : i < arcs.length, ∃ ht : i < (turned g arcs).length,
      e.edge = g.edges[i] ∧ e.reversed = (turned g arcs)[i] := by
  obtain ⟨i, hi, rfl⟩ := List.mem_iff_getElem.mp h
  have he : i < g.edges.length := by rwa [length_arranged_edges settings sizes harcs] at hi
  have ha : i < arcs.length := harcs ▸ he
  have ht : i < (turned g arcs).length := by rwa [turned, length_feedback]
  exact ⟨i, he, ha, ht, getElem_arranged_edges hi he ha ht⟩

end Plans

/-! ## Layouts that succeed -/

theorem mapM_eq_ok {α β ε : Type} {f : α → Except ε β} {xs : List α} {ys : List β}
    (h : xs.mapM f = .ok ys) : List.Forall₂ (fun x y => f x = .ok y) xs ys := by
  induction xs generalizing ys with
  | nil =>
    cases h
    exact .nil
  | cons x rest ih =>
    rw [List.mapM_cons] at h
    cases hx : f x with
    | error e =>
      rw [hx] at h
      cases h
    | ok y =>
      cases hrest : rest.mapM f with
      | error e =>
        rw [hx, hrest] at h
        cases h
      | ok zs =>
        rw [hx, hrest] at h
        cases h
        exact .cons hx (ih hrest)

theorem exists_mapM_eq_ok {α β ε : Type} {f : α → Except ε β} {xs : List α}
    (h : ∀ x ∈ xs, ∃ y, f x = .ok y) : ∃ ys, xs.mapM f = .ok ys := by
  induction xs with
  | nil => exact ⟨[], rfl⟩
  | cons x rest ih =>
    obtain ⟨y, hy⟩ := h x List.mem_cons_self
    obtain ⟨ys, hys⟩ := ih fun x hx => h x (List.mem_cons_of_mem _ hx)
    rw [List.mapM_cons, hy, hys]
    exact ⟨y :: ys, rfl⟩

theorem sizeOf_eq_ok {g : Graph} {sizer : Sizer K} {id : String} {size : K × K}
    (h : sizeOf g sizer id = .ok size) :
    size = sizer id (g.labelLines id) ∧ Scalar.isLength size.1 = true ∧
      Scalar.isLength size.2 = true := by
  unfold sizeOf at h
  dsimp only at h
  split at h
  · rename_i hlengths
    cases h
    exact ⟨rfl, by simpa using hlengths⟩
  · cases h

theorem sizeOf_ok {g : Graph} {sizer : Sizer K} {id : String}
    (h : Scalar.isLength (sizer id (g.labelLines id)).1 = true ∧
      Scalar.isLength (sizer id (g.labelLines id)).2 = true) :
    sizeOf g sizer id = .ok (sizer id (g.labelLines id)) := by
  unfold sizeOf
  dsimp only
  rw [if_pos (by simpa using h)]

/-- An edge between nodes has an arc. -/
theorem exists_arcOf_eq_ok {g : Graph} {e : Edge} (h : e.source ∈ g.nodes ∧ e.target ∈ g.nodes) :
    ∃ arc, arcOf g e = .ok arc := by
  have hfind : ∀ {id : String}, id ∈ g.nodes →
      ∃ i, g.nodes.zipIdx.reverse.lookup id = some i := by
    intro id hid
    obtain ⟨i, hi⟩ := List.mem_iff_getElem?.mp hid
    have hmem : (id, i) ∈ g.nodes.zipIdx := List.mem_zipIdx_iff_getElem?.mpr hi
    refine Option.isSome_iff_exists.mp (List.lookup_isSome_iff.mpr ⟨(id, i), ?_, ?_⟩)
    · exact List.mem_reverse.mpr hmem
    · exact beq_self_eq_true _
  obtain ⟨u, hu⟩ := hfind h.1
  obtain ⟨v, hv⟩ := hfind h.2
  refine ⟨(u, v), ?_⟩
  unfold arcOf
  dsimp only
  rw [hu, hv]
  rfl

theorem exists_sizeOf_eq {g : Graph} {sizer : Sizer K} {ids : List String} {sizes : List (K × K)}
    (h : List.Forall₂ (fun id size => sizeOf g sizer id = .ok size) ids sizes) :
    ∀ s ∈ sizes, ∃ id ∈ ids, sizeOf g sizer id = .ok s := by
  induction h with
  | nil => exact fun _ hs => nomatch hs
  | @cons id _ ids _ hsize _ ih =>
    intro s hs
    rcases List.mem_cons.mp hs with rfl | hs
    · exact ⟨id, List.mem_cons_self, hsize⟩
    · obtain ⟨other, hother, hsize⟩ := ih s hs
      exact ⟨other, List.mem_cons_of_mem _ hother, hsize⟩

theorem sizes_isLength {g : Graph} {sizer : Sizer K} {ids : List String} {sizes : List (K × K)}
    (h : List.Forall₂ (fun id size => sizeOf g sizer id = .ok size) ids sizes) :
    ∀ s ∈ sizes, Scalar.isLength s.1 = true ∧ Scalar.isLength s.2 = true := by
  intro s hs
  obtain ⟨id, -, hsize⟩ := exists_sizeOf_eq h s hs
  exact (sizeOf_eq_ok hsize).2

end Layout

namespace Graph

open Layout

variable {K : Type} [Scalar K] {g : Graph} {settings : Settings K} {sizer : Sizer K}
  {l : Layout K}

/-- The layout of a graph without nodes. -/
def emptyLayout (g : Graph) (settings : Settings K) : Layout K :=
  { nodes := [], edges := [], box := .empty, direction := settings.direction, crossings := 0
    directed := g.directed }

/-- A graph that is laid out has no edge to unknown nodes; if it has nodes, they have sizes. -/
theorem layout_eq_ok (h : g.layout settings sizer = .ok l) :
    g.unknownNode? = none ∧
      ((g.nodes = [] ∧ l = g.emptyLayout settings) ∨
        ∃ sizes arcs,
          List.Forall₂ (fun id size => Layout.sizeOf g sizer id = .ok size) g.nodes sizes ∧
          List.Forall₂ (fun e arc => arcOf g e = .ok arc) g.edges arcs ∧
          l = arranged g settings sizes arcs) := by
  unfold layout at h
  cases hunknown : g.unknownNode? with
  | some e =>
    rw [hunknown] at h
    cases h
  | none =>
    refine ⟨rfl, ?_⟩
    rw [hunknown] at h
    by_cases hnodes : g.nodes = []
    · rw [if_pos (by rw [hnodes]; rfl)] at h
      cases h
      exact .inl ⟨hnodes, rfl⟩
    · right
      rw [if_neg (by simpa using hnodes)] at h
      cases hsizes : g.nodes.mapM (Layout.sizeOf g sizer) with
      | error e =>
        rw [hsizes] at h
        cases h
      | ok sizes =>
        cases harcs : g.edges.mapM (arcOf g) with
        | error e =>
          rw [hsizes, harcs] at h
          cases h
        | ok arcs =>
          rw [hsizes, harcs] at h
          cases h
          exact ⟨sizes, arcs, mapM_eq_ok hsizes, mapM_eq_ok harcs, rfl⟩

/-- A layout shows all nodes and all edges of its graph. -/
theorem layout_complete (h : g.layout settings sizer = .ok l) :
    l.nodes.map (·.id) = g.nodes ∧ l.edges.map (·.edge) = g.edges := by
  obtain ⟨hknown, ⟨hempty, rfl⟩ | ⟨sizes, arcs, hsizes, harcs, rfl⟩⟩ := layout_eq_ok h
  · refine ⟨hempty.symm, (List.eq_nil_iff_forall_not_mem.mpr fun e he => ?_).symm⟩
    have hsource := (unknownNode?_eq_none.mp hknown e he).1
    rw [hempty] at hsource
    cases hsource
  · exact ⟨ids_arranged settings arcs hsizes.length_eq.symm,
      edges_arranged harcs.length_eq.symm⟩

theorem layout_eq_emptyLayout (hnodes : g.nodes = []) (h : g.layout settings sizer = .ok l) :
    l = g.emptyLayout settings := by
  unfold layout at h
  cases hunknown : g.unknownNode? with
  | some e =>
    rw [hunknown] at h
    cases h
  | none =>
    rw [hunknown] at h
    dsimp only at h
    rw [if_pos (by rw [hnodes]; rfl)] at h
    exact (Except.ok.inj h).symm

/-- A graph without edges to unknown nodes is laid out if all its nodes have sizes. -/
theorem exists_layout (settings : Settings K) (sizer : Sizer K) (hknown : g.unknownNode? = none)
    (hsizes : ∀ id ∈ g.nodes, Scalar.isLength (sizer id (g.labelLines id)).1 = true ∧
      Scalar.isLength (sizer id (g.labelLines id)).2 = true) :
    ∃ l, g.layout settings sizer = .ok l := by
  obtain ⟨sizes, hs⟩ := exists_mapM_eq_ok fun id hid => ⟨_, sizeOf_ok (hsizes id hid)⟩
  obtain ⟨arcs, ha⟩ := exists_mapM_eq_ok fun e he =>
    exists_arcOf_eq_ok (unknownNode?_eq_none.mp hknown e he)
  unfold layout
  rw [hknown]
  by_cases hnodes : g.nodes = []
  · exact ⟨_, if_pos (by rw [hnodes]; rfl)⟩
  · dsimp only
    rw [if_neg (by simpa using hnodes), hs, ha]
    exact ⟨_, rfl⟩

end Graph
end Tiered
