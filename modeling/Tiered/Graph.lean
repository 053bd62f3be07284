import Tiered.Table

/-!
Graphs as texts describe them: node ids in order of first mention, edges in order of declaration,
and attributes by name.
-/
namespace Tiered

/-- Attribute values by name. -/
abbrev Attrs := Table String

structure Edge where
  source : String
  target : String
  attrs : Attrs := ∅
  deriving DecidableEq, Repr

namespace Edge

def isLoop (e : Edge) : Bool := e.source == e.target

def attr? (e : Edge) (key : String) : Option String := e.attrs.get? key

/-- Both edges run from one node to another; without direction, either way round. -/
def sameEnds (directed : Bool) (e f : Edge) : Bool :=
  (e.source == f.source && e.target == f.target) ||
    (!directed && e.source == f.target && e.target == f.source)

end Edge

structure Graph where
  directed : Bool := false
  strict : Bool := false
  name : Option String := none
  nodes : List String := []
  edges : List Edge := []
  nodeAttrs : Table Attrs := ∅
  attrs : Attrs := ∅
  deriving DecidableEq, Repr

/-- An edge names a node that the graph does not have. -/
structure UnknownNode where
  id : String
  deriving DecidableEq, Repr

namespace Graph

/-- Adds the node behind the others unless the graph has it. -/
def addNode (g : Graph) (id : String) : Graph :=
  if g.nodes.contains id then g else { g with nodes := g.nodes ++ [id] }

/-- Overlays the attributes of a node. Nothing to overlay leaves no entry behind. -/
def overlayNode (g : Graph) (id : String) (pairs : List (String × String)) : Graph :=
  if pairs.isEmpty then g
  else { g with nodeAttrs := g.nodeAttrs.insert id (((g.nodeAttrs.get? id).getD ∅).extend pairs) }

def setNodeAttrs (g : Graph) (id : String) (attrs : Attrs) : Graph :=
  (g.addNode id).overlayNode id attrs.entries

/-- Adds the edge behind the others, and its ends if they are new. -/
def addEdge (g : Graph) (e : Edge) : Graph :=
  let g := (g.addNode e.source).addNode e.target
  { g with edges := g.edges ++ [e] }

def setAttr (g : Graph) (key value : String) : Graph :=
  { g with attrs := g.attrs.insert key value }

def nodeAttr? (g : Graph) (id key : String) : Option String :=
  (g.nodeAttrs.get? id).bind (·.get? key)

def attr? (g : Graph) (key : String) : Option String := g.attrs.get? key

/-- The first end of an edge that is no node. -/
def unknownNode? (g : Graph) : Option UnknownNode :=
  (g.edges.flatMap fun e => [e.source, e.target]).find? (!g.nodes.contains ·) |>.map (⟨·⟩)

end Graph
end Tiered
