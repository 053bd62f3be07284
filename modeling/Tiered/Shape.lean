import Tiered.Graph

/-!
The outlines that nodes are drawn with.
-/
namespace Tiered

inductive Shape where
  | box
  | ellipse
  | circle
  | diamond
  /-- Text without an outline. -/
  | plain
  deriving DecidableEq, Repr, Inhabited

/-- Reads a shape name in any ASCII letter case; an unknown name means a box. -/
def Shape.ofName (name : String) : Shape :=
  let name := name.map Char.toLower
  if name = "ellipse" || name = "oval" then .ellipse
  else if name = "circle" || name = "doublecircle" || name = "point" then .circle
  else if name = "diamond" then .diamond
  else if name = "plaintext" || name = "plain" || name = "none" then .plain
  else .box

def Graph.shape (g : Graph) (id : String) : Shape :=
  match g.nodeAttr? id "shape" with
  | some name => .ofName name
  | none => .box

end Tiered
