import Tiered.Layout.Basic
import Tiered.Scene

/-!
Drawing a layout as a scene: edges first, then their labels, and the nodes on top. Attributes of
nodes and edges set colours, lines and arrowheads.
-/
namespace Tiered

variable {K : Type} [Scalar K]

/-- What attributes say about the look of a node or an edge. -/
structure Look (K : Type) where
  stroke : String
  fill : String
  fontColor : String
  strokeWidth : K
  dash : Option String
  rounded : Bool
  invisible : Bool
  deriving DecidableEq, Repr

namespace Look

/-- An attribute that is not empty. -/
def value? (attrs : Attrs) (key : String) : Option String := (attrs.get? key).filter (· ≠ "")

/-- Whether the comma separated list `style` names `name`, in any ASCII letter case. -/
def hasStyle (attrs : Attrs) (name : String) : Bool :=
  match value? attrs "style" with
  | none => false
  | some styles =>
    (styles.toList.splitOn ',').any fun s => (Text.strip s).map Char.toLower == name.toList

def ofAttrs (attrs : Attrs) : Look K :=
  let color := value? attrs "color"
  let fillColor := value? attrs "fillcolor"
  let width : K := ((value? attrs "penwidth").bind Numeral.length?).getD (3 / 2)
  { stroke := color.getD "#333"
    fill :=
      if hasStyle attrs "filled" then (fillColor.or color).getD "lightgrey"
      else fillColor.getD "#fff"
    fontColor := (value? attrs "fontcolor").getD "#000"
    strokeWidth := if hasStyle attrs "bold" then width * 2 else width
    dash :=
      if hasStyle attrs "dashed" then some "5,2"
      else if hasStyle attrs "dotted" then some "1,3"
      else none
    rounded := hasStyle attrs "rounded"
    invisible := hasStyle attrs "invis" }

def outlineStyle (l : Look K) : Style K :=
  { fill := l.fill, stroke := l.stroke, strokeWidth := l.strokeWidth, dash := l.dash }

def lineStyle (l : Look K) : Style K := { l.outlineStyle with fill := "none" }

end Look

namespace Drawing

def label (center : Point K) (lines : List String) (metrics : TextMetrics K) (color : String) :
    Element K :=
  .text center lines metrics.fontSize metrics.lineHeight color

/-- How far the corners of a rounded box are cut. -/
def cornerRadius : K := 5

/-- The outline of a node; plain text has none. -/
def outline (n : PlacedNode K) (look : Look K) : List (Element K) :=
  let r := n.rect
  let c := r.center
  match n.shape with
  | .box => [.rect r (if look.rounded then cornerRadius else 0) look.outlineStyle]
  | .ellipse => [.ellipse c (r.width / 2) (r.height / 2) look.outlineStyle]
  | .circle =>
    let radius := min r.width r.height / 2
    [.ellipse c radius radius look.outlineStyle]
  | .diamond =>
    let corners := [⟨c.x, r.y⟩, ⟨r.right, c.y⟩, ⟨c.x, r.bottom⟩, ⟨r.x, c.y⟩]
    [.polygon corners look.outlineStyle]
  | .plain => []

def node? (metrics : TextMetrics K) (n : PlacedNode K) : Option (Element K) :=
  let look : Look K := .ofAttrs n.attrs
  if look.invisible then none
  else
    some (.group "node" (some ("node-" ++ n.id))
      (outline n look ++ [label n.rect.center n.lines metrics look.fontColor]))

/-- The arrowhead that an edge ends in. Every edge has one unless it says otherwise. -/
def markerKind? (attrs : Attrs) : Option MarkerKind :=
  if attrs.get? "dir" = some "none" then none
  else
    match attrs.get? "arrowhead" with
    | some "none" | some "undirected" => none
    | some "vee" => some .vee
    | _ => some .normal

def markerName : MarkerKind → String
  | .normal => "normal"
  | .vee => "vee"

/-- The id of a marker of this kind and color, which is added to those there are if it is new. -/
def useMarker (markers : List Marker) (kind : MarkerKind) (color : String) :
    String × List Marker :=
  match markers.find? fun m => m.kind = kind ∧ m.color = color with
  | some m => (m.id, markers)
  | none =>
    let id := "arrowhead-" ++ markerName kind ++ "-" ++ toString markers.length
    (id, markers ++ [{ id, kind, color }])

/-- The edges drawn so far. -/
structure Edges (K : Type) where
  markers : List Marker := []
  paths : List (Element K) := []
  labels : List (Element K) := []

/-- Draws one more edge unless it is invisible. -/
def addEdge (metrics : TextMetrics K) (drawn : Edges K) (e : RoutedEdge K) : Edges K :=
  let look : Look K := .ofAttrs e.attrs
  if look.invisible then drawn
  else
    let (marker, markers) := match markerKind? e.attrs with
      | some kind =>
        let (id, markers) := useMarker drawn.markers kind look.stroke
        (some id, markers)
      | none => (none, drawn.markers)
    { markers
      paths := drawn.paths ++ [.path e.points look.lineStyle marker]
      labels := drawn.labels ++ match e.label with
        | some l => [label l.rect.center l.lines metrics look.fontColor]
        | none => [] }

end Drawing

/-- The scene of a layout, with texts of these metrics. -/
def Layout.draw (l : Layout K) (metrics : TextMetrics K) : Scene K :=
  let edges := l.edges.foldl (Drawing.addEdge metrics) {}
  { Scene.blank l.box with
    markers := edges.markers
    root := .group "output" none
      [.group "edgePaths" none edges.paths,
        .group "edgeLabels" none edges.labels,
        .group "nodes" none (l.nodes.filterMap (Drawing.node? metrics))] }

end Tiered
