import Tiered.Display
import Tiered.Pipeline
import Tiered.Scene.Svg

/-!
A widget that keeps the drawing of a table in its host. What cannot be drawn is replaced by a
placeholder; no failure goes further.
-/
namespace Tiered

variable {K : Type} [Scalar K]

structure Size (K : Type) where
  width : K
  height : K
  deriving DecidableEq, Repr

def Size.zero : Size K := ⟨0, 0⟩

/-- The element that a widget draws into. -/
structure Host (K : Type) where
  anchor : String := Scene.standardAnchor
  /-- The space that the host offers. -/
  available : Size K
  /-- The size of the drawing, zero with the placeholder. -/
  size : Size K
  container : Container K := {}

def Host.new (anchor : String) (available : Size K) : Host K :=
  { anchor, available, size := .zero }

/-- What a widget shows. -/
inductive Output (K : Type) where
  | graph (size : Size K)
  | placeholder
  deriving DecidableEq, Repr

inductive WidgetError where
  | noText (e : DisplayError)
  | noDiagram (e : RenderError)
  deriving DecidableEq, Repr

structure Widget (K : Type) where
  display : Display
  overrides : Overrides K := {}
  host : Host K
  output : Output K := .placeholder

namespace Widget

/-- The scene of the first row, under the anchor of the host. -/
def render (w : Widget K) (rows : List Row) : Except WidgetError (Scene K) :=
  match w.display.request rows with
  | .error e => .error (.noText e)
  | .ok request =>
    match Diagram.ofDot request.dot w.overrides with
    | .error e => .error (.noDiagram e)
    | .ok diagram => .ok { diagram.scene with anchor := w.host.anchor }

/-- Drops the scene and shows the placeholder. -/
def unmount (w : Widget K) : Widget K :=
  { w with host := { w.host with size := .zero, container := {} }, output := .placeholder }

/-- Shows a scene in place of what was shown. -/
def showScene (w : Widget K) (scene : Scene K) : Widget K :=
  let size : Size K := ⟨scene.width, scene.height⟩
  { w with
    host := { w.host with size, container := w.host.container.mount scene }
    output := .graph size }

/-- Draws the rows in place of what was shown. -/
def update (w : Widget K) (rows : List Row) : Widget K :=
  match w.render rows with
  | .ok scene => w.showScene scene
  | .error _ => w.unmount

def setDisplay (w : Widget K) (display : Display) (rows : List Row) : Widget K :=
  { w with display }.update rows

/-- Notes the space that the host now offers; the drawing keeps its size. -/
def resize (w : Widget K) (available : Size K) : Widget K :=
  { w with host := { w.host with available } }

/-- A new widget with the first rows drawn. -/
def mount (display : Display) (host : Host K) (rows : List Row) : Widget K :=
  ({ display, host } : Widget K).update rows

def placeholderHtml : String :=
  "<div class=\"graph-widget-placeholder\">Invalid spec for graph</div>"

def styled (className : String) (size : Size K) (more : String) : String :=
  "<div class=\"" ++ className ++ "\" style=\"width: " ++ Scalar.text size.width ++
    "px; height: " ++ Scalar.text size.height ++ "px;" ++ more ++ "\">"

/-- The drawing in its own size within a scrolling frame of the size that the host offers. -/
def toHtml (w : Widget K) : String :=
  match w.output, w.host.container.scene with
  | .graph size, some scene =>
    styled "graph-widget" w.host.available " overflow: auto;" ++
      styled "graph-content" size "" ++ scene.toSvg ++ "</div></div>"
  | _, _ => placeholderHtml

end Widget
end Tiered
