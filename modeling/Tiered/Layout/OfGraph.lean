import Tiered.Label
import Tiered.Layering.Feedback
import Tiered.Layering.Ordering
import Tiered.Layering.Ranking
import Tiered.Layout.Frame
import Tiered.Layout.Placement

/-!
Laying a graph out: cycles are broken, nodes are ranked, ordered and placed, and edges are routed
between the outlines of their ends.
-/
namespace Tiered

open Layering

variable {K : Type} [Scalar K]

/-- Width and height of a node, given its id and its lines. -/
abbrev Sizer (K : Type) := String → List String → K × K

namespace Layout

/-- The most ranks an edge may ask for. -/
def maxSpan : Nat := 100

/-- How many ranks an edge asks for. What is no number asks for one. -/
def spanOf (minlen : Option String) : Nat :=
  let asked := (minlen.bind fun text => Numeral.natural? (Text.trim text)).getD 1
  min (max asked 1) maxSpan

/-- A point of the layers on the screen. -/
def onScreen (direction : Direction) (along across : K) : Point K :=
  match direction with
  | .topBottom => ⟨along, across⟩
  | .bottomTop => ⟨along, -across⟩
  | .leftRight => ⟨across, along⟩
  | .rightLeft => ⟨-across, along⟩

/-- The arcs that lead down; loops lead nowhere. -/
def oriented (arcs : List Arc) (reversed : List Bool) : List (Option Arc) :=
  arcs.zipWith (fun a flip => if a.1 = a.2 then none else if flip then some a.swap else some a)
    reversed

/-- The spans that edges ask for between their ends. -/
def spans (arcs : List (Option Arc)) (lengths : List Nat) : List Span :=
  (arcs.zip lengths).filterMap fun (arc, span) =>
    arc.map fun a => { upper := a.1, lower := a.2, span }

/-- How far each edge is bent to the side. Edges with both ends in common that join neighbouring
ranks are spread evenly, in the order of their declaration; `earlier` holds those passed. -/
def spread (edgeSep : K) (all earlier : List (Option Arc)) : List (Option Arc) → List K
  | [] => []
  | none :: rest => 0 :: spread edgeSep all earlier rest
  | some arc :: rest =>
    let middle : K := ((all.count (some arc) - 1 : Nat) : K) / 2
    (((earlier.count (some arc) : Nat) : K) - middle) * edgeSep ::
      spread edgeSep all (some arc :: earlier) rest

/-- The arcs of the edges that have a single segment. -/
def shortArcs (arcs : List (Option Arc)) (chains : List (Option (List Nat))) : List (Option Arc) :=
  arcs.zipWith (fun arc chain => if chain.any (·.length = 2) then arc else none) chains

/-- For each edge how many loops at the same node come before it. -/
def loopsBefore (arcs : List Arc) : List Nat :=
  go [] arcs
where
  go (loops : List Nat) : List Arc → List Nat
    | [] => []
    | (u, v) :: rest =>
      if u = v then loops.count u :: go (u :: loops) rest else 0 :: go loops rest

/-- The centres that an edge is drawn through, from its upper end down. An edge of one segment is
bent in its middle unless its bend is zero. -/
def centreLine (points : List (K × K)) (bend : K) : List (K × K) :=
  match points with
  | [a, b] => if bend == 0 then [a, b] else [a, ((a.1 + b.1) / 2 + bend, (a.2 + b.2) / 2), b]
  | _ => points

/-- The label of an edge, centred on the middle of its route. -/
def placeLabel (text : TextMetrics K) (points : List (Point K)) (lines : List String) :
    PlacedLabel K :=
  let (w, h) := text.textSize lines
  { lines, rect := Rect.centered (midpoint points) (w + text.paddingX) (h + text.paddingY) }

/-- Everything known about one edge before it is routed. -/
structure EdgePlan (K : Type) where
  edge : Edge
  arc : Arc
  chain : Option (List Nat)
  reversed : Bool
  bend : K
  /-- Loops at the same node that come before this edge. -/
  loops : Nat

/-- Routes an edge. `centre` gives the places of the nodes of its chain. -/
def routeEdge (settings : Settings K) (outlines : Array (Outline K)) (centre : Nat → K × K)
    (plan : EdgePlan K) : RoutedEdge K :=
  let source := outlines.getD plan.arc.1 ⟨⟨0, 0, 0, 0⟩, .box⟩
  let target := outlines.getD plan.arc.2 ⟨⟨0, 0, 0, 0⟩, .box⟩
  let points := match plan.chain with
    | none => selfLoop source.rect settings.direction plan.loops
    | some chain =>
      let line := centreLine (chain.map centre) plan.bend
      let line := if plan.reversed then line.reverse else line
      clipEnds source target (line.map fun p => onScreen settings.direction p.1 p.2)
  { source := plan.edge.source
    target := plan.edge.target
    points
    arrowhead := arrowhead points
    label := plan.edge.labelLines?.map (placeLabel settings.text points)
    reversed := plan.reversed
    attrs := plan.edge.attrs }

/-- Where the ends of an edge stand among the nodes. -/
def arcOf (g : Graph) (e : Edge) : Except LayoutError Arc := do
  let find (id : String) : Except LayoutError Nat :=
    match g.nodes.zipIdx.reverse.lookup id with
    | some i => pure i
    | none => throw (.unknownNode id)
  return (← find e.source, ← find e.target)

/-- The size of a node, which has to be two lengths. -/
def sizeOf (g : Graph) (sizer : Sizer K) (id : String) : Except LayoutError (K × K) :=
  let (w, h) := sizer id (g.labelLines id)
  if Scalar.isLength w && Scalar.isLength h then .ok (w, h) else .error (.invalidSize id)

/-- The layout of a graph whose edges and sizes are in order. -/
def arranged (g : Graph) (settings : Settings K) (sizes : List (K × K)) (arcs : List Arc) :
    Layout K :=
  let n := g.nodes.length
  let reversed := feedback n arcs
  let down := oriented arcs reversed
  let ranks := ranking n (spans down (g.edges.map fun e => spanOf (e.attr? "minlen")))
  let layered := Layered.ofEdges ranks down
  let (layers, crossings) := layered.minimize layered.arrange
  let horizontal := settings.direction.isHorizontal
  let breadths := (sizes.map fun s => if horizontal then s.2 else s.1).toArray
  let heights := (sizes.map fun s => if horizontal then s.1 else s.2).toArray
  let along := alongLayers layered layers breadths ⟨settings.nodeSep, settings.edgeSep⟩
  let across := acrossLayers layered heights settings.rankSep
  let centre (v : Nat) : K × K := (along.getD v 0, across.getD v 0)
  let places := layered.places layers
  let nodes := (g.nodes.zip sizes).mapIdx fun v (id, w, h) =>
    { id
      rect := Rect.centered (onScreen settings.direction (centre v).1 (centre v).2) w h
      rank := ranks.getD v 0
      order := places.getD v 0
      lines := g.labelLines id
      shape := g.shape id
      attrs := (g.nodeAttrs.get? id).getD ∅ : PlacedNode K }
  let outlines := (nodes.map (·.outline)).toArray
  let short := shortArcs down layered.chains
  let bends := spread settings.edgeSep short [] short
  let plans := g.edges.zip (arcs.zip (layered.chains.zip (reversed.zip (bends.zip
    (loopsBefore arcs)))))
  let edges := plans.map fun (edge, arc, chain, reversed, bend, loops) =>
    routeEdge settings outlines centre { edge, arc, chain, reversed, bend, loops }
  frame settings.margin
    { nodes, edges, box := .empty, direction := settings.direction, crossings
      directed := g.directed }

end Layout

/-- Lays a graph out with nodes of the sizes that `sizer` gives. -/
def Graph.layout (g : Graph) (settings : Settings K) (sizer : Sizer K) :
    Except LayoutError (Layout K) := do
  if let some e := g.unknownNode? then throw (.unknownNode e.id)
  if g.nodes.isEmpty then
    return { nodes := [], edges := [], box := .empty, direction := settings.direction
             crossings := 0, directed := g.directed }
  let sizes ← g.nodes.mapM (Layout.sizeOf g sizer)
  let arcs ← g.edges.mapM (Layout.arcOf g)
  return Layout.arranged g settings sizes arcs

end Tiered
