import Tiered.Layout.Basic

/-!
The frame around a drawing: everything is moved so that the drawing begins at its margin.
-/
namespace Tiered.Layout

variable {K : Type} [Scalar K]

/-- All points that the frame has to hold. -/
def extent (nodes : List (PlacedNode K)) (edges : List (RoutedEdge K)) : List (Point K) :=
  nodes.flatMap (·.rect.corners) ++ edges.flatMap (·.extent)

/-- Moves a layout so that a margin is left on all sides. Its box begins at the origin. -/
def frame (margin : K) (l : Layout K) : Layout K :=
  let bounds := Box.around (extent l.nodes l.edges)
  let dx := margin - bounds.minX
  let dy := margin - bounds.minY
  { l with
    nodes := l.nodes.map (·.shift dx dy)
    edges := l.edges.map (·.shift dx dy)
    box := ⟨0, 0, bounds.width + 2 * margin, bounds.height + 2 * margin⟩ }

end Tiered.Layout
