import Tiered.Layout.Route

/-!
Layouts: where everything that is drawn of a graph belongs.
-/
namespace Tiered

open Layout (Arrowhead)

structure PlacedNode (K : Type) where
  id : String
  rect : Rect K
  rank : Nat
  /-- The place within the rank. -/
  order : Nat
  lines : List String
  shape : Shape
  attrs : Attrs
  deriving DecidableEq, Repr

structure PlacedLabel (K : Type) where
  lines : List String
  rect : Rect K
  deriving DecidableEq, Repr

structure RoutedEdge (K : Type) where
  source : String
  target : String
  /-- From the outline of the source to the outline of the target. -/
  points : List (Point K)
  arrowhead : Arrowhead K
  label : Option (PlacedLabel K)
  /-- The edge was turned around to break a cycle. -/
  reversed : Bool
  attrs : Attrs
  deriving DecidableEq, Repr

structure Layout (K : Type) where
  nodes : List (PlacedNode K)
  edges : List (RoutedEdge K)
  box : Box K
  direction : Direction
  /-- How many pairs of segments cross. -/
  crossings : Nat
  directed : Bool
  deriving DecidableEq, Repr

inductive LayoutError where
  | unknownNode (id : String)
  | invalidSize (id : String)
  deriving DecidableEq, Repr

def LayoutError.message : LayoutError → String
  | unknownNode id => "edge references unknown node `" ++ id ++ "`"
  | invalidSize id => "node sizer returned an invalid size for `" ++ id ++ "`"

namespace Layout

variable {K : Type} [Scalar K]

def node? (l : Layout K) (id : String) : Option (PlacedNode K) := l.nodes.find? (·.id == id)

def width (l : Layout K) : K := l.box.width

def height (l : Layout K) : K := l.box.height

end Layout

namespace PlacedNode

variable {K : Type} [Scalar K]

def outline (n : PlacedNode K) : Layout.Outline K := ⟨n.rect, n.shape⟩

def shift (n : PlacedNode K) (dx dy : K) : PlacedNode K := { n with rect := n.rect.shift dx dy }

end PlacedNode

namespace RoutedEdge

variable {K : Type} [Scalar K]

/-- The points that a frame around the edge has to hold. -/
def extent (e : RoutedEdge K) : List (Point K) :=
  e.points ++ match e.label with
    | some label => label.rect.corners
    | none => []

def shift (e : RoutedEdge K) (dx dy : K) : RoutedEdge K :=
  { e with
    points := e.points.map (·.shift dx dy)
    arrowhead := { e.arrowhead with position := e.arrowhead.position.shift dx dy }
    label := e.label.map fun label => { label with rect := label.rect.shift dx dy } }

end RoutedEdge
end Tiered
