import Tiered.Dot.Tree
import Tiered.Graph

/-!
The graph that a syntax tree means. Statements are run in the order of the text: blocks are
flattened, defaults hold to the end of the block that sets them, and a strict graph merges edges
with the same ends.
-/
namespace Tiered.Dot

/-- The attributes that nodes and edges get unless they say otherwise. -/
structure Defaults where
  node : Attrs := ∅
  edge : Attrs := ∅
  deriving DecidableEq, Repr

/-- Adds a node with the defaults in force; a node the graph has stays as it is. -/
def mention (g : Graph) (defaults : Defaults) (id : String) : Graph :=
  if g.nodes.contains id then g
  else (g.addNode id).overlayNode id defaults.node.entries

/-- Overlays the attributes of the first edge with the ends of `e`, if there is one. -/
def mergeEdge? (directed : Bool) (e : Edge) : List Edge → Option (List Edge)
  | [] => none
  | f :: rest =>
    if e.sameEnds directed f then some ({ f with attrs := f.attrs.extend e.attrs.entries } :: rest)
    else (mergeEdge? directed e rest).map (f :: ·)

/-- Adds an edge behind others, or merges it into the first of them with its ends. -/
def joinEdge (directed : Bool) (edges : List Edge) (e : Edge) : List Edge :=
  (mergeEdge? directed e edges).getD (edges ++ [e])

/-- Adds edges in order. A strict graph has no two edges with the same ends. -/
def declareEdges (g : Graph) (edges : List Edge) : Graph :=
  { g with
    edges := if g.strict then edges.foldl (joinEdge g.directed) g.edges else g.edges ++ edges }

def addMember (members : List String) (id : String) : List String :=
  if members.contains id then members else members ++ [id]

/-- All edges from one group of nodes to the next. -/
def edgesBetween (attrs : Attrs) : List (List String) → List Edge
  | sources :: targets :: rest =>
    (sources.flatMap fun s => targets.map fun t => { source := s, target := t, attrs }) ++
      edgesBetween attrs (targets :: rest)
  | _ => []

/-- What running the statements of a block has come to. -/
structure Progress where
  graph : Graph
  defaults : Defaults
  /-- The ids the block mentions, in the order of first mention. -/
  members : List String := []

mutual

/-- Runs the statements of a block; `outermost` holds in the block of the graph itself. -/
def runStmts (outermost : Bool) (p : Progress) : List Stmt → Progress
  | [] => p
  | s :: rest => runStmts outermost (runStmt outermost p s) rest

def runStmt (outermost : Bool) (p : Progress) : Stmt → Progress
  | .node id attrs =>
    { p with
      graph := (mention p.graph p.defaults id).overlayNode id attrs
      members := addMember p.members id }
  | .edges ends attrs =>
    let (graph, groups) := runEnds p.graph p.defaults ends
    { p with
      graph := declareEdges graph (edgesBetween (p.defaults.edge.extend attrs) groups)
      members := groups.flatten.foldl addMember p.members }
  | .defaults .graph attrs =>
    if outermost then { p with graph := { p.graph with attrs := p.graph.attrs.extend attrs } }
    else p
  | .defaults .node attrs =>
    { p with defaults := { p.defaults with node := p.defaults.node.extend attrs } }
  | .defaults .edge attrs =>
    { p with defaults := { p.defaults with edge := p.defaults.edge.extend attrs } }
  | .block body =>
    let inner := runStmts false { graph := p.graph, defaults := p.defaults } body
    { p with graph := inner.graph, members := inner.members.foldl addMember p.members }

/-- Runs the endpoints of a chain; each stands for a group of nodes. -/
def runEnds (g : Graph) (defaults : Defaults) : List Endpoint → Graph × List (List String)
  | [] => (g, [])
  | e :: rest =>
    let (g, group) := runEnd g defaults e
    let (g, groups) := runEnds g defaults rest
    (g, group :: groups)

def runEnd (g : Graph) (defaults : Defaults) : Endpoint → Graph × List String
  | .node id => (mention g defaults id, [id])
  | .block body =>
    let inner := runStmts false { graph := g, defaults } body
    (inner.graph, inner.members)

end

def Document.graph (d : Document) : Graph :=
  let start : Graph := { directed := d.directed, strict := d.strict, name := d.name }
  (runStmts true { graph := start, defaults := {} } d.body).graph

end Tiered.Dot
