import Mathlib.Data.Nat.Cast.Defs
import Tiered.Proofs.Guarded.Coordinates
import Tiered.Proofs.Guarded.Feedback
import Tiered.Proofs.Guarded.Ordering
import Tiered.Proofs.Guarded.Ranking
import Tiered.Proofs.Layout.Parallel
import Tiered.Proofs.Layout.Routes

/-!
# Nothing in a layout can fail

A layout as it is made, with accesses that may fail in all its stages.

* `spread?_eq`: groups of parallel edges are not empty, and have edges as members;
* `clipEnds?_eq`: both ends of a route are there, and the points that they are seen from;
* `routeAll?_eq`: edge after edge, with a counter of the loops at each node, edges are routed as
  `loopsBefore` says;
* `sketch?_eq`, `plane?_eq`: the stages before that;
* `layout?_eq`: so a layout gets through, with a drawing or with an error about its graph.
-/

namespace Tiered

namespace Layout

open Layering

variable {K : Type} [Scalar K]

/-! ## Bends -/

section Bends

variable {arcs : List (Option Arc)} {chains : List (Option (List Nat))}

/-- The arcs of the edges that have a single segment. -/
def shortArcs? (arcs : List (Option Arc)) (chains : List (Option (List Nat))) :
    Option (List (Option Arc)) :=
  arcs.zipIdx.mapM fun e => match e.1 with
    | none => some none
    | some a => do return if (← chains[e.2]?).any (·.length = 2) then some a else none

/-- Gives the members of a group their bends. -/
def spreadGroup? (edgeSep : K) (bends : Array K) (members : List Nat) : Option (Array K) := do
  let last ← minus? members.length 1
  writes? bends (members.zipIdx.map fun e => (e.1, ((e.2 : K) - (last : K) / 2) * edgeSep))

def spreadGroups? (edgeSep : K) (count : Nat) (groups : Groups) : Option (Array K) :=
  groups.foldlM (fun bends g => spreadGroup? edgeSep bends g.2) (Array.replicate count 0)

def spread? (edgeSep : K) (arcs : List (Option Arc)) (chains : List (Option (List Nat))) :
    Option (Array K) := do
  let short ← shortArcs? arcs chains
  spreadGroups? edgeSep arcs.length (.ofArcs short)

theorem shortArcs?_eq (h : chains.length = arcs.length) :
    shortArcs? arcs chains = some (shortArcs arcs chains) := by
  have hread : shortArcs? arcs chains = some (arcs.zipIdx.map fun e =>
      if (chains.getD e.2 none).any (·.length = 2) then e.1 else none) := by
    refine mapM_eq_some fun e he => ?_
    obtain ⟨arc, i⟩ := e
    cases arc with
    | none => simp
    | some a =>
      have hi : i < chains.length := h.symm ▸ List.snd_lt_of_mem_zipIdx he
      exact bind_of_eq_some (getElem?_eq_getD hi none) _
  rw [hread, shortArcs]
  refine congrArg some (List.ext_getElem (by simp [h]) fun i hi hi' => ?_)
  have hi : i < chains.length := by simpa [h] using hi
  simp [hi]

/-- Groups are not empty, and their members are edges. -/
theorem Gathers.spreadGroups?_eq {groups : Groups} (h : Gathers arcs groups) (edgeSep : K) :
    spreadGroups? edgeSep arcs.length groups =
      some (spreadGroups edgeSep arcs.length groups) := by
  refine (foldlM_eq_some (P := fun bends : Array K => bends.size = arcs.length) ?_
    Array.size_replicate).1
  intro bends hsize g hg
  have hmembers := h.members g hg
  have hbound : ∀ i ∈ g.2, i < bends.size := by
    intro i hi
    rw [hmembers, List.mem_idxsOf_iff_exists_getElem_pos] at hi
    obtain ⟨hi, -⟩ := hi
    exact hsize ▸ hi
  have hpos : 1 ≤ g.2.length := by
    rw [hmembers, List.length_idxsOf]
    exact List.count_pos_iff.mpr ((h.keys g.1).mp (List.mem_map_of_mem hg))
  have hentries : ∀ e ∈ groupEntries edgeSep g.2, e.1 < bends.size := by
    intro e he
    exact hbound e.1 (map_fst_groupEntries edgeSep g.2 ▸ List.mem_map_of_mem he)
  rw [spreadGroup_eq]
  refine ⟨?_, (size_writes _ _).trans hsize⟩
  rw [spreadGroup?, bind_of_eq_some (minus?_eq hpos)]
  exact writes?_eq hentries

theorem spread?_eq (h : chains.length = arcs.length) (edgeSep : K) :
    spread? edgeSep arcs chains =
      some (spread edgeSep (shortArcs arcs chains) [] (shortArcs arcs chains)).toArray := by
  have hlength : arcs.length = (shortArcs arcs chains).length := by simp [shortArcs, h]
  have hgroups := gathers_ofArcs (shortArcs arcs chains)
  rw [spread?, bind_of_eq_some (shortArcs?_eq h), hlength, hgroups.spreadGroups?_eq,
    ← hgroups.spreadGroups_eq, Array.toArray_toList]

end Bends

/-! ## Routes -/

/-- Puts the first and the last point of a route on the outlines of its ends. -/
def clipEnds? (source target : Outline K) (points : List (Point K)) : Option (List (Point K)) :=
  if points.length < 2 then some points else do
    let clipped ← set? points 0 (clip source (← points[1]?))
    let last ← minus? points.length 1
    set? clipped last (clip target (← clipped[← minus? points.length 2]?))

/-- Bends an edge of one segment in its middle. -/
def centreLine? (points : List (K × K)) (bend : K) : Option (List (K × K)) :=
  if bend == 0 || points.length ≠ 2 then some points else do
    let a ← points[0]?
    let b ← points[1]?
    return points.insertIdx 1 ((a.1 + b.1) / 2 + bend, (a.2 + b.2) / 2)

omit [Scalar K] in
theorem exists_append_pair (p q : Point K) (rest : List (Point K)) :
    ∃ front before last, p :: q :: rest = front ++ [before, last] := by
  induction rest generalizing p q with
  | nil => exact ⟨[], p, q, rfl⟩
  | cons r rest ih =>
    obtain ⟨front, before, last, h⟩ := ih q r
    exact ⟨p :: front, before, last, congrArg (p :: ·) h⟩

theorem clipEnds?_eq (source target : Outline K) (points : List (Point K)) :
    clipEnds? source target points = some (clipEnds source target points) := by
  rcases points with _ | ⟨first, _ | ⟨second, rest⟩⟩
  · rfl
  · rfl
  have hsecond : (first :: second :: rest)[1]? = some second := rfl
  have hclipped : set? (first :: second :: rest) 0 (clip source second) =
      some (clip source second :: second :: rest) := set?_eq (Nat.succ_pos _) _
  rw [clipEnds?, if_neg (by simp), bind_of_eq_some hsecond, bind_of_eq_some hclipped,
    bind_of_eq_some (minus?_eq (by simp)), bind_of_eq_some (minus?_eq (by simp)), clipEnds]
  obtain ⟨front, before, last, hback⟩ := exists_append_pair (clip source second) second rest
  have hlength : rest.length = front.length := by
    have := congrArg List.length hback
    simpa using this
  have hbefore : (front ++ [before, last])[(first :: second :: rest).length - 2]? =
      some before := by simp [hlength]
  have hset : set? (front ++ [before, last]) ((first :: second :: rest).length - 1)
      (clip target before) = some (front ++ [before, clip target before]) := by
    rw [set?_eq (by simp [hlength])]
    simp [hlength]
  rw [hback, bind_of_eq_some hbefore, hset, clipLast_concat]

theorem centreLine?_eq (points : List (K × K)) (bend : K) :
    centreLine? points bend = some (centreLine points bend) := by
  rcases points with _ | ⟨a, _ | ⟨b, _ | ⟨c, rest⟩⟩⟩
  · rw [centreLine?, if_pos (by simp)]
    rfl
  · rw [centreLine?, if_pos (by simp)]
    rfl
  · have hpair : (bend == 0 || [a, b].length ≠ 2) = (bend == 0) := Bool.or_false _
    rw [centreLine?, centreLine, hpair]
    split <;> rfl
  · rw [centreLine?, if_pos (by simp)]
    rfl

/-! ## The stages before routing -/

/-- What is known once nodes are ordered. -/
structure Sketch where
  reversed : List Bool
  down : List (Option Arc)
  ranks : Array Nat
  graph : Layered
  layers : Layers
  crossings : Nat

/-- Breaks cycles, ranks and orders. -/
def sketch? (add : Nat → Nat → Nat) (n : Nat) (arcs : List Arc) (lengths : List Nat) :
    Option Sketch := do
  let reversed ← feedback? n arcs
  let down := oriented arcs reversed
  let ranks ← assignRanks? add n (spans down lengths)
  let graph := (← build? ranks down).layered n
  let (layers, crossings) ← graph.minimize? (← graph.firstOrder?)
  return { reversed, down, ranks, graph, layers, crossings }

/-- What is known once nodes are placed. -/
structure Plane (K : Type) where
  along : Array K
  across : Array K
  nodes : List (PlacedNode K)
  bends : Array K

/-- Puts a node where its number says. -/
def placeNode? (g : Graph) (settings : Settings K) (sizes : List (K × K)) (ranks places : Array Nat)
    (along across : Array K) (e : String × Nat) : Option (PlacedNode K) := do
  let centre := onScreen settings.direction (← along[e.2]?) (← across[e.2]?)
  let size ← sizes[e.2]?
  return { id := e.1
           rect := .centered centre size.1 size.2
           rank := ← ranks[e.2]?
           order := ← places[e.2]?
           lines := ← (g.nodes.map g.labelLines)[e.2]?
           shape := g.shape e.1
           attrs := (g.nodeAttrs.get? e.1).getD ∅ }

def plane? (g : Graph) (settings : Settings K) (sizes : List (K × K)) (s : Sketch) :
    Option (Plane K) := do
  let along ← alongLayers? s.graph s.layers (extents s.graph (breadths settings sizes))
    ⟨settings.nodeSep, settings.edgeSep⟩
  let across ← acrossLayers? s.graph s.layers.length (extents s.graph (heights settings sizes))
    settings.rankSep
  let places ← s.graph.places? s.layers
  let nodes ← g.nodes.zipIdx.mapM (placeNode? g settings sizes s.ranks places along across)
  let bends ← spread? settings.edgeSep s.down s.graph.chains
  return { along, across, nodes, bends }

section Stages

variable {g : Graph} {settings : Settings K} {sizes : List (K × K)} {arcs : List Arc}

/-- The stages of a layout up to the order of its nodes. -/
def sketch (g : Graph) (arcs : List Arc) : Sketch :=
  { reversed := turned g arcs
    down := downArcs g arcs
    ranks := nodeRanks g arcs
    graph := layeredGraph g arcs
    layers := finalLayers g arcs
    crossings := ((layeredGraph g arcs).minimize (layeredGraph g arcs).arrange).2 }

/-- The stages of a layout up to the places of its nodes. -/
def plane (g : Graph) (settings : Settings K) (sizes : List (K × K)) (arcs : List Arc) : Plane K :=
  { along := alongLayers (layeredGraph g arcs) (finalLayers g arcs) (breadths settings sizes)
      ⟨settings.nodeSep, settings.edgeSep⟩
    across := acrossLayers (layeredGraph g arcs) (heights settings sizes) settings.rankSep
    nodes := placedNodes g settings sizes arcs
    bends := (bends g settings arcs).toArray }

/-- Addition that is exact as far as the edges of a graph may ask for ranks. -/
def ExactBelow (add : Nat → Nat → Nat) (g : Graph) : Prop :=
  ∀ a b, a + b ≤ maxSpan * g.edges.length → add a b = a + b

/-- Addition that stops at the largest machine number is exact unless edges are without number. -/
theorem exactBelow_saturatingAdd (h : maxSpan * g.edges.length ≤ maxWord) :
    ExactBelow saturatingAdd g := fun _ _ hab => Nat.min_eq_left (hab.trans h)

theorem exactFor_spans {add : Nat → Nat → Nat} (h : ExactBelow add g) (down : List (Option Arc)) :
    ExactFor add (spans down (g.edges.map fun e => spanOf (e.attr? "minlen"))) := by
  intro a b hab
  refine h a b (hab.trans ?_)
  have hspan : ∀ k ∈ (spans down (g.edges.map fun e => spanOf (e.attr? "minlen"))).map Span.span,
      k ≤ maxSpan := by
    intro k hk
    obtain ⟨s, hs, rfl⟩ := List.mem_map.mp hk
    obtain ⟨e, -, he⟩ := List.mem_map.mp (List.of_mem_zip (mem_spans.mp hs)).2
    exact he ▸ (spanOf_bounds _).2
  have hlength : (spans down (g.edges.map fun e => spanOf (e.attr? "minlen"))).length ≤
      g.edges.length := by
    refine (List.length_filterMap_le _ _).trans ?_
    rw [List.length_zip, List.length_map]
    exact Nat.min_le_right _ _
  have hsum := List.sum_le_card_nsmul _ maxSpan hspan
  rw [List.length_map, smul_eq_mul, Nat.mul_comm] at hsum
  exact hsum.trans (Nat.mul_le_mul_left _ hlength)

variable (harcs : List.Forall₂ (fun e arc => arcOf g e = .ok arc) g.edges arcs)

include harcs

theorem joined_layeredGraph : (layeredGraph g arcs).Joined :=
  Layered.joined_ofEdges (leadDown_downArcs harcs)

theorem sketch?_eq {add : Nat → Nat → Nat} (hadd : ExactBelow add g) :
    sketch? add g.nodes.length arcs (g.edges.map fun e => spanOf (e.attr? "minlen")) =
      some (sketch g arcs) := by
  have hb : ∀ a ∈ arcs, a.1 < g.nodes.length ∧ a.2 < g.nodes.length := fun a ha => arcs_lt harcs ha
  have hg := joined_layeredGraph harcs
  have hs : (layeredGraph g arcs).Sized := Layered.sized_ofEdges _ _
  have hranks : assignRanks? add g.nodes.length
      (spans (downArcs g arcs) (g.edges.map fun e => spanOf (e.attr? "minlen"))) =
        some (nodeRanks g arcs) :=
    assignRanks?_eq (upward_spans hb _) (exactFor_spans hadd _)
  have hbuild : build? (nodeRanks g arcs) (downArcs g arcs) =
      some (.ofLayered (layeredGraph g arcs)) := by
    refine build?_eq fun a ha => ?_
    rw [size_nodeRanks]
    exact (mem_downArcs hb ha).2
  have hreal : (Building.ofLayered (layeredGraph g arcs)).layered g.nodes.length =
      layeredGraph g arcs := by
    rw [← size_nodeRanks g arcs]
    exact Building.layered_ofLayered _
  rw [sketch?, bind_of_eq_some (feedback?_eq hb)]
  change (assignRanks? add _ (spans (downArcs g arcs) _) >>= _) = _
  rw [bind_of_eq_some hranks]
  change (build? (nodeRanks g arcs) (downArcs g arcs) >>= _) = _
  rw [bind_of_eq_some hbuild]
  dsimp only
  rw [hreal, bind_of_eq_some (Layered.firstOrder?_eq hg hs),
    bind_of_eq_some (Layered.minimize?_eq hg hs (Layered.complete_arrange _))]
  rfl

theorem sizes_plane (settings : Settings K) (sizes : List (K × K)) :
    (plane g settings sizes arcs).along.size = (layeredGraph g arcs).size ∧
      (plane g settings sizes arcs).across.size = (layeredGraph g arcs).size :=
  ⟨(alongLayers?_eq (joined_layeredGraph harcs) (Layered.sized_ofEdges _ _)
    (complete_finalLayers g arcs) _ _).2, Array.size_map⟩

/-- All nodes are placed. -/
theorem centre?_eq (settings : Settings K) (sizes : List (K × K)) {v : Nat}
    (hv : v < (layeredGraph g arcs).size) :
    (plane g settings sizes arcs).along[v]? = some (alongOf g settings sizes arcs v) ∧
      (plane g settings sizes arcs).across[v]? = some (acrossOf g settings sizes arcs v) := by
  obtain ⟨halong, hacross⟩ := sizes_plane harcs settings sizes
  exact ⟨getElem?_of_lt (halong.symm ▸ hv) 0, getElem?_of_lt (hacross.symm ▸ hv) 0⟩

theorem placeNode?_eq (settings : Settings K) (hlength : sizes.length = g.nodes.length)
    {e : String × Nat} (he : e ∈ g.nodes.zipIdx) :
    placeNode? g settings sizes (nodeRanks g arcs)
        ((layeredGraph g arcs).places (finalLayers g arcs)) (plane g settings sizes arcs).along
        (plane g settings sizes arcs).across e =
      some (placedNode g settings sizes arcs e.2 e.1 (sizes.getD e.2 (0, 0))) := by
  obtain ⟨id, v⟩ := e
  have hnode : g.nodes[v]? = some id := List.mem_zipIdx_iff_getElem?.mp he
  have hv : v < g.nodes.length := (List.getElem?_eq_some_iff.mp hnode).1
  have hsize := lt_size_layeredGraph arcs hv
  obtain ⟨halong, hacross⟩ := centre?_eq harcs settings sizes hsize
  have hsizes : sizes[v]? = some (sizes.getD v (0, 0)) :=
    getElem?_eq_getD (hlength.symm ▸ hv) (0, 0)
  have hrank : (nodeRanks g arcs)[v]? = some ((nodeRanks g arcs).getD v 0) :=
    getElem?_of_lt (by rwa [size_nodeRanks]) 0
  have hlines : (g.nodes.map g.labelLines)[v]? = some (g.labelLines id) := by
    rw [List.getElem?_map, hnode]
    rfl
  rw [placeNode?, bind_of_eq_some halong, bind_of_eq_some hacross, bind_of_eq_some hsizes,
    bind_of_eq_some hrank, bind_of_eq_some (Layered.getElem?_places hsize), bind_of_eq_some hlines]
  rfl

theorem plane?_eq (hlength : sizes.length = g.nodes.length) :
    plane? g settings sizes (sketch g arcs) = some (plane g settings sizes arcs) := by
  have hs : (layeredGraph g arcs).Sized := Layered.sized_ofEdges _ _
  have hcomplete := complete_finalLayers g arcs
  obtain ⟨halong, -⟩ := alongLayers?_eq (joined_layeredGraph harcs) hs hcomplete
    (breadths settings sizes) ⟨settings.nodeSep, settings.edgeSep⟩
  have hacross := acrossLayers?_eq (layeredGraph g arcs) (heights settings sizes) settings.rankSep
  rw [← hcomplete.depth] at hacross
  have hplaced : placedNodes g settings sizes arcs = g.nodes.zipIdx.map fun e =>
      placedNode g settings sizes arcs e.2 e.1 (sizes.getD e.2 (0, 0)) :=
    List.ext_getElem (by simp [placedNodes, hlength]) fun i hi hi' => by
      have hi : i < sizes.length := by simpa [hlength] using hi'
      simp [placedNodes, hi]
  have hnodes := mapM_eq_some fun e he => placeNode?_eq harcs settings hlength (e := e) he
  rw [← hplaced] at hnodes
  have hchains : (layeredGraph g arcs).chains.length = (downArcs g arcs).length :=
    Layered.length_chains _ _
  rw [plane?, sketch, bind_of_eq_some halong, bind_of_eq_some hacross,
    bind_of_eq_some (Layered.places?_eq hcomplete)]
  refine (bind_of_eq_some hnodes _).trans ?_
  rw [bind_of_eq_some (spread?_eq hchains _)]
  rfl

end Stages

/-! ## Routing -/

/-- The points of a loop at node `v`, where it is counted. -/
def loop? (direction : Direction) (source : PlacedNode K) (loops : Array Nat) (v : Nat) :
    Option (List (Point K) × Array Nat) := do
  let nth ← loops[v]?
  return (selfLoop source.rect direction nth, ← modify? loops v (· + 1))

/-- The points of an edge along its chain of nodes. -/
def thread? (direction : Direction) (p : Plane K) (source target : PlacedNode K) (reversed : Bool)
    (bend : K) (chain : List Nat) : Option (List (Point K)) := do
  let centres ← chain.mapM fun v => do return ((← p.along[v]?), (← p.across[v]?))
  let line ← centreLine? centres bend
  let line := if reversed then line.reverse else line
  clipEnds? source.outline target.outline (line.map fun c => onScreen direction c.1 c.2)

/-- The points of edge `i`, and how many loops there are at each node after it. -/
def points? (settings : Settings K) (arcs : List Arc) (s : Sketch) (p : Plane K)
    (loops : Array Nat) (i : Nat) : Option (List (Point K) × Array Nat) := do
  let arc ← arcs[i]?
  let source ← p.nodes[arc.1]?
  let target ← p.nodes[arc.2]?
  match ← s.graph.chains[i]? with
  | none => loop? settings.direction source loops arc.1
  | some chain =>
    let reversed ← s.reversed[i]?
    let bend ← p.bends[i]?
    return (← thread? settings.direction p source target reversed bend chain, loops)

/-- Routes one edge more. -/
def routeNext? (settings : Settings K) (arcs : List Arc) (s : Sketch) (p : Plane K)
    (state : List (RoutedEdge K) × Array Nat) (e : Edge × Nat) :
    Option (List (RoutedEdge K) × Array Nat) := do
  let (points, loops) ← points? settings arcs s p state.2 e.2
  let routed := { source := e.1.source
                  target := e.1.target
                  points
                  arrowhead := arrowhead points
                  label := e.1.labelLines?.map (placeLabel settings.text points)
                  reversed := ← s.reversed[e.2]?
                  attrs := e.1.attrs }
  return (state.1 ++ [routed], loops)

def routeAll? (g : Graph) (settings : Settings K) (arcs : List Arc) (s : Sketch) (p : Plane K) :
    Option (List (RoutedEdge K)) := do
  let (routed, _) ← g.edges.zipIdx.foldlM (routeNext? settings arcs s p)
    ([], Array.replicate g.nodes.length 0)
  return routed

/-! ### Loops are counted -/

/-- How many loops there are at each of `n` nodes. -/
def loopCounts (n : Nat) (arcs : List Arc) : Array Nat :=
  (Array.range n).map fun v => arcs.count (v, v)

section Loops

variable {n : Nat} {arcs : List Arc}

theorem getElem?_loopCounts {v : Nat} (hv : v < n) :
    (loopCounts n arcs)[v]? = some (arcs.count (v, v)) := by
  simp [loopCounts, hv]

theorem modify?_loopCounts {v : Nat} (hv : v < n) :
    modify? (loopCounts n arcs) v (· + 1) = some (loopCounts n (arcs ++ [(v, v)])) := by
  rw [modify?_eq (by simpa [loopCounts] using hv)]
  refine congrArg some (ext_getD 0 (by simp [loopCounts]) fun w hw => ?_)
  have hw : w < n := by simpa [loopCounts] using hw
  have hget : ∀ as, (loopCounts n as).getD w 0 = as.count (w, w) := fun as => by
    simp [loopCounts, hw]
  rw [getD_modify, hget, hget]
  by_cases hvw : v = w <;> simp [hvw, loopCounts, hw]

theorem loopCounts_concat {a : Arc} (ha : a.1 ≠ a.2) :
    loopCounts n (arcs ++ [a]) = loopCounts n arcs := by
  have hne : ∀ v, a ≠ (v, v) := fun v h => ha (h ▸ rfl)
  simp [loopCounts, hne]

/-- The loops before a loop are those that were counted at its node. -/
theorem getElem?_loopsBefore {i : Nat} {u : Nat} (h : arcs[i]? = some (u, u)) :
    (loopsBefore arcs)[i]? = some ((arcs.take i).count (u, u)) := by
  have hgo : ∀ loops : List Nat, (loopsBefore.go loops arcs)[i]? =
      some (loops.count u + (arcs.take i).count (u, u)) := by
    induction arcs generalizing i with
    | nil => cases h
    | cons arc rest ih =>
      intro loops
      obtain ⟨v, w⟩ := arc
      cases i with
      | zero =>
        cases h
        simp [loopsBefore.go]
      | succ i =>
        have hrest := ih h
        rw [loopsBefore.go, List.take_succ_cons]
        by_cases hloop : v = w
        · subst hloop
          rw [if_pos rfl, List.getElem?_cons_succ, hrest]
          by_cases hv : v = u
          · simp [hv]
            omega
          · simp [hv]
        · have hother : (v, w) ≠ (u, u) := fun heq => by
            cases heq
            exact hloop rfl
          rw [if_neg hloop, List.getElem?_cons_succ, hrest, List.count_cons_of_ne hother]
  exact (hgo []).trans (by simp)

theorem loop?_eq (direction : Direction) (source : PlacedNode K) {i u : Nat} (hu : u < n)
    (h : arcs[i]? = some (u, u)) :
    loop? direction source (loopCounts n (arcs.take i)) u =
      some (selfLoop source.rect direction ((arcs.take i).count (u, u)),
        loopCounts n (arcs.take (i + 1))) := by
  obtain ⟨hi, harc⟩ := List.getElem?_eq_some_iff.mp h
  rw [loop?, bind_of_eq_some (getElem?_loopCounts hu), bind_of_eq_some (modify?_loopCounts hu),
    List.take_succ_eq_append_getElem hi, harc]
  rfl

end Loops

section Routing

variable {g : Graph} {settings : Settings K} {sizes : List (K × K)} {arcs : List Arc}
  (harcs : List.Forall₂ (fun e arc => arcOf g e = .ok arc) g.edges arcs)

include harcs

/-- A loop has no chain, and any other edge has one that leads through nodes. -/
theorem getElem?_chains {i : Nat} (ha : i < arcs.length) :
    if arcs[i].1 = arcs[i].2 then (layeredGraph g arcs).chains[i]? = some none
    else ∃ chain, (layeredGraph g arcs).chains[i]? = some (some chain) ∧
      ∀ v ∈ chain, v < (layeredGraph g arcs).size := by
  have hd : i < (downArcs g arcs).length := by rwa [length_downArcs]
  have hc : i < (layeredGraph g arcs).chains.length := by
    rwa [layeredGraph, Layered.length_chains]
  have hbecomes := (List.forall₂_iff_get.mp
    (Layered.paths_ofEdges (leadDown_downArcs harcs))).2 i hd hc
  change Layered.Becomes (layeredGraph g arcs).rank (downArcs g arcs)[i]
    (layeredGraph g arcs).chains[i] at hbecomes
  rw [getElem_downArcs hd ha (by rwa [turned, length_feedback])] at hbecomes
  rw [List.getElem?_eq_getElem hc]
  split
  · rename_i hloop
    rw [if_pos hloop] at hbecomes
    exact congrArg some hbecomes
  · rename_i hne
    rw [if_neg hne, ← apply_ite some] at hbecomes
    obtain ⟨chain, hchain, hpath⟩ := hbecomes
    exact ⟨chain, congrArg some hchain, hpath.bound⟩

/-- Along a chain of nodes an edge gets through. -/
theorem thread?_eq (settings : Settings K) (sizes : List (K × K)) (source target : PlacedNode K)
    (reversed : Bool) (bend : K) {chain : List Nat}
    (h : ∀ v ∈ chain, v < (layeredGraph g arcs).size) :
    thread? settings.direction (plane g settings sizes arcs) source target reversed bend chain =
      let line := centreLine (chain.map (centreOf g settings sizes arcs)) bend
      let line := if reversed then line.reverse else line
      some (clipEnds source.outline target.outline
        (line.map fun c => onScreen settings.direction c.1 c.2)) := by
  have hcentres : (chain.mapM fun v => do
      return ((← (plane g settings sizes arcs).along[v]?),
        (← (plane g settings sizes arcs).across[v]?))) =
      some (chain.map (centreOf g settings sizes arcs)) := by
    refine mapM_eq_some fun v hv => ?_
    obtain ⟨halong, hacross⟩ := centre?_eq harcs settings sizes (h v hv)
    rw [bind_of_eq_some halong, bind_of_eq_some hacross]
    rfl
  rw [thread?, bind_of_eq_some hcentres, bind_of_eq_some (centreLine?_eq _ _)]
  exact clipEnds?_eq _ _ _

variable (hlength : sizes.length = g.nodes.length)

include hlength

/-- The points of an edge are those that its plan has it routed through. -/
theorem points?_eq {i : Nat} (hi : i < (routedEdges g settings sizes arcs).length)
    (ha : i < arcs.length) :
    points? settings arcs (sketch g arcs) (plane g settings sizes arcs)
        (loopCounts g.nodes.length (arcs.take i)) i =
      some ((routedEdges g settings sizes arcs)[i].points,
        loopCounts g.nodes.length (arcs.take (i + 1))) := by
  have hp : i < (plans g settings arcs).length := by rwa [length_routedEdges] at hi
  have ht : i < (turned g arcs).length := by rwa [turned, length_feedback]
  have he : i < g.edges.length := harcs.length_eq ▸ ha
  have hc : i < (layeredGraph g arcs).chains.length := by
    rwa [layeredGraph, Layered.length_chains, length_downArcs]
  have hb : i < (bends g settings arcs).length := by rwa [length_bends]
  have hl : i < (loopsBefore arcs).length := by rwa [length_loopsBefore]
  have hplan : (plans g settings arcs)[i] =
      ⟨g.edges[i], arcs[i], (layeredGraph g arcs).chains[i], (turned g arcs)[i],
        (bends g settings arcs)[i], (loopsBefore arcs)[i]⟩ := by simp [plans]
  have hcount : (placedNodes g settings sizes arcs).length = g.nodes.length := by
    simp [placedNodes, hlength]
  have harc : arcs[i]? = some arcs[i] := List.getElem?_eq_getElem ha
  obtain ⟨hu, hv⟩ := arcs_lt harcs (List.getElem_mem ha)
  have hnode : ∀ v < g.nodes.length, ∃ n, (placedNodes g settings sizes arcs)[v]? = some n :=
    fun v hv => ⟨_, List.getElem?_eq_getElem (hcount ▸ hv)⟩
  obtain ⟨source, hsource⟩ := hnode _ hu
  obtain ⟨target, htarget⟩ := hnode _ hv
  have hchains := getElem?_chains harcs ha
  rw [List.getElem?_eq_getElem hc] at hchains
  rw [points?, bind_of_eq_some harc, plane, bind_of_eq_some hsource, bind_of_eq_some htarget,
    sketch, bind_of_eq_some (List.getElem?_eq_getElem hc), getElem_routedEdges_eq hi hp, hplan,
    routeEdge]
  dsimp only
  rw [outline_of_getElem? hsource, outline_of_getElem? htarget]
  split at hchains
  · rename_i hloop
    have hself : arcs[i]? = some (arcs[i].1, arcs[i].1) :=
      harc.trans (congrArg some (Prod.ext rfl hloop.symm))
    have hbefore : (loopsBefore arcs)[i] = (arcs.take i).count (arcs[i].1, arcs[i].1) :=
      Option.some.inj ((List.getElem?_eq_getElem hl).symm.trans (getElem?_loopsBefore hself))
    rw [Option.some.inj hchains, hbefore]
    exact loop?_eq settings.direction source hu hself
  · rename_i hne
    obtain ⟨chain, hchain, hbound⟩ := hchains
    have hbend : (bends g settings arcs).toArray[i]? = some (bends g settings arcs)[i] := by
      rw [List.getElem?_toArray, List.getElem?_eq_getElem hb]
    rw [Option.some.inj hchain, List.take_succ_eq_append_getElem ha, loopCounts_concat hne]
    dsimp only
    rw [bind_of_eq_some (List.getElem?_eq_getElem ht), bind_of_eq_some hbend]
    exact bind_of_eq_some (thread?_eq harcs settings sizes source target _ _ hbound) _

/-- Edge after edge, all routes are made. -/
theorem routeAll?_eq : routeAll? g settings arcs (sketch g arcs) (plane g settings sizes arcs) =
    some (routedEdges g settings sizes arcs) := by
  have hcount : (routedEdges g settings sizes arcs).length = g.edges.length := by
    rw [length_routedEdges, length_plans harcs.length_eq.symm]
  have hstep : ∀ i e, g.edges[i]? = some e →
      routeNext? settings arcs (sketch g arcs) (plane g settings sizes arcs)
          ((routedEdges g settings sizes arcs).take i,
            loopCounts g.nodes.length (arcs.take i)) (e, i) =
        some ((routedEdges g settings sizes arcs).take (i + 1),
          loopCounts g.nodes.length (arcs.take (i + 1))) := by
    intro i e hget
    obtain ⟨he, hedge⟩ := List.getElem?_eq_some_iff.mp hget
    have ha : i < arcs.length := harcs.length_eq ▸ he
    have ht : i < (turned g arcs).length := by rwa [turned, length_feedback]
    have hi : i < (routedEdges g settings sizes arcs).length := hcount.symm ▸ he
    have hp : i < (plans g settings arcs).length := by rwa [length_routedEdges] at hi
    have hreversed : (sketch g arcs).reversed[i]? = some (turned g arcs)[i] :=
      List.getElem?_eq_getElem ht
    obtain ⟨hplanned, -, hturned⟩ := getElem_plans hp he ha ht
    rw [routeNext?, bind_of_eq_some (points?_eq harcs hlength hi ha)]
    refine (bind_of_eq_some hreversed _).trans ?_
    rw [List.take_succ_eq_append_getElem hi, ← hturned, ← hedge, ← hplanned,
      getElem_routedEdges_eq hi hp]
    rfl
  have hnone : loopCounts g.nodes.length [] = Array.replicate g.nodes.length 0 :=
    Array.ext (by simp [loopCounts]) fun v _ _ => by simp [loopCounts]
  have hloop := foldlM_zipIdx_eq_some (fun i => ((routedEdges g settings sizes arcs).take i,
    loopCounts g.nodes.length (arcs.take i))) hstep
  rw [List.take_zero, List.take_zero, hnone, ← hcount, List.take_length] at hloop
  rw [routeAll?, bind_of_eq_some hloop]
  rfl

end Routing

/-! ## The layout -/

/-- The layout of a graph whose edges and sizes are in order. -/
def arranged? (add : Nat → Nat → Nat) (g : Graph) (settings : Settings K) (sizes : List (K × K))
    (arcs : List Arc) : Option (Layout K) := do
  let s ← sketch? add g.nodes.length arcs (g.edges.map fun e => spanOf (e.attr? "minlen"))
  let p ← plane? g settings sizes s
  let edges ← routeAll? g settings arcs s p
  return frame settings.margin
    { nodes := p.nodes, edges, box := .empty, direction := settings.direction
      crossings := s.crossings, directed := g.directed }

theorem arranged?_eq {add : Nat → Nat → Nat} {g : Graph} (hadd : ExactBelow add g)
    (settings : Settings K) {sizes : List (K × K)} {arcs : List Arc}
    (hlength : sizes.length = g.nodes.length)
    (harcs : List.Forall₂ (fun e arc => arcOf g e = .ok arc) g.edges arcs) :
    arranged? add g settings sizes arcs = some (arranged g settings sizes arcs) := by
  rw [arranged?, bind_of_eq_some (sketch?_eq harcs hadd), bind_of_eq_some (plane?_eq harcs hlength),
    bind_of_eq_some (routeAll?_eq harcs hlength), arranged_eq]
  rfl

end Layout

namespace Graph

open Layout

variable {K : Type} [Scalar K]

/-- Lays a graph out with ranks that are added by `add`. The result is an error about the graph or
a layout, or nothing if an access fails. -/
def layout? (add : Nat → Nat → Nat) (g : Graph) (settings : Settings K) (sizer : Sizer K) :
    ExceptT LayoutError Option (Layout K) := do
  if let some e := g.unknownNode? then throw (.unknownNode e.id)
  if g.nodes.isEmpty then return g.emptyLayout settings
  let sizes ← MonadExcept.ofExcept (g.nodes.mapM (Layout.sizeOf g sizer))
  let arcs ← MonadExcept.ofExcept (g.edges.mapM (arcOf g))
  arranged? add g settings sizes arcs

/-- **Nothing in a layout can fail** but the checks of the graph and of its sizes. -/
theorem layout?_eq {add : Nat → Nat → Nat} {g : Graph} (hadd : ExactBelow add g)
    (settings : Settings K) (sizer : Sizer K) :
    (g.layout? add settings sizer).run = some (g.layout settings sizer) := by
  unfold layout? layout
  cases g.unknownNode? with
  | some e => rfl
  | none =>
    dsimp only
    split
    · rfl
    · cases hsizes : g.nodes.mapM (Layout.sizeOf g sizer) with
      | error e => rfl
      | ok sizes =>
        cases harcs : g.edges.mapM (arcOf g) with
        | error e => rfl
        | ok arcs =>
          have harranged := arranged?_eq hadd settings (mapM_eq_ok hsizes).length_eq.symm
            (mapM_eq_ok harcs)
          change Except.ok <$> arranged? add g settings sizes arcs = _
          rw [harranged]
          rfl

end Graph
end Tiered
