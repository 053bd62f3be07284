import Tiered.Markup
import Tiered.Scene

/-!
Scenes written as SVG. Numbers have at most two places.
-/
namespace Tiered

variable {K : Type} [Scalar K]

def fontFamily : String := "Helvetica, Arial, sans-serif"

def Point.text (p : Point K) : String := Scalar.text p.x ++ "," ++ Scalar.text p.y

/-- Points with blanks between them. -/
def pointList (points : List (Point K)) : String :=
  " ".intercalate (points.map (·.text))

/-- A path of straight lines through the points. -/
def pathData : List (Point K) → String
  | [] => ""
  | p :: rest => " ".intercalate (("M" ++ p.text) :: rest.map fun q => "L" ++ q.text)

def Style.attrs (s : Style K) : List (String × String) :=
  [("fill", s.fill), ("stroke", s.stroke), ("stroke-width", Scalar.text s.strokeWidth)] ++
    match s.dash with
    | some dash => [("stroke-dasharray", dash)]
    | none => []

def reference (marker : String) : String := "url(#" ++ marker ++ ")"

namespace Element

/-- The lines of a text, each at its own height from `y` on. -/
def lineTags (x y lineHeight : K) (lines : List String) : List Markup :=
  lines.mapIdx fun i line =>
    .inline "tspan"
      [("x", Scalar.text x), ("y", Scalar.text (y + (i : K) * lineHeight))] [.text line]

mutual

def markup : Element K → Markup
  | group className id children =>
    let attrs := ("class", className) :: match id with
      | some id => [("id", id)]
      | none => []
    match children with
    | [] => .void "g" attrs
    | child :: rest => .block "g" attrs (markup child :: markupAll rest)
  | rect r cornerRadius style =>
    let corners :=
      if 0 < cornerRadius then
        [("rx", Scalar.text cornerRadius), ("ry", Scalar.text cornerRadius)]
      else []
    .void "rect"
      ([("x", Scalar.text r.x), ("y", Scalar.text r.y), ("width", Scalar.text r.width),
        ("height", Scalar.text r.height)] ++ corners ++ style.attrs)
  | ellipse c rx ry style =>
    .void "ellipse"
      ([("cx", Scalar.text c.x), ("cy", Scalar.text c.y), ("rx", Scalar.text rx),
        ("ry", Scalar.text ry)] ++ style.attrs)
  | polygon points style => .void "polygon" (("points", pointList points) :: style.attrs)
  | path points style markerEnd =>
    .void "path" (("d", pathData points) :: style.attrs ++
      match markerEnd with
      | some marker => [("marker-end", reference marker)]
      | none => [])
  | text c lines fontSize lineHeight color =>
    let first := c.y - ((lines.length - 1 : Nat) : K) * lineHeight / 2
    .inline "text"
      [("text-anchor", "middle"), ("dominant-baseline", "central"), ("font-family", fontFamily),
        ("font-size", Scalar.text fontSize), ("fill", color)]
      (lineTags c.x first lineHeight lines)

def markupAll : List (Element K) → List Markup
  | [] => []
  | e :: rest => markup e :: markupAll rest

end

end Element

def Marker.markup (m : Marker) : Markup :=
  let tip := match m.kind with
    | .normal => [("d", "M 0 0 L 10 5 L 0 10 z"), ("fill", m.color), ("stroke", "none")]
    | .vee =>
      [("d", "M 0 0 L 10 5 L 0 10"), ("fill", "none"), ("stroke", m.color),
        ("stroke-width", "1.5")]
  .inline "marker"
    [("id", m.id), ("viewBox", "0 0 10 10"), ("refX", "9"), ("refY", "5"),
      ("markerUnits", "strokeWidth"), ("markerWidth", "8"), ("markerHeight", "6"),
      ("orient", "auto")]
    [.void "path" tip]

namespace Scene

def markup (s : Scene K) : Markup :=
  let corner := [s.viewBox.minX, s.viewBox.minY, s.viewBox.width, s.viewBox.height]
  .block "svg"
    [("xmlns", "http://www.w3.org/2000/svg"), ("id", s.anchor), ("width", Scalar.text s.width),
      ("height", Scalar.text s.height), ("viewBox", " ".intercalate (corner.map Scalar.text))]
    [.block "defs" [] (s.markers.map (·.markup)), s.root.markup]

def toSvg (s : Scene K) : String := String.ofList (s.markup.writeLines 0)

end Scene
end Tiered
