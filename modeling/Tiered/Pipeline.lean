import Tiered.Dot.Reader
import Tiered.Drawing
import Tiered.Layout.OfGraph

/-!
From a DOT text to a scene.
-/
namespace Tiered

variable {K : Type} [Scalar K]

inductive RenderError where
  | notDot (e : Dot.SyntaxError)
  | noLayout (e : LayoutError)
  deriving DecidableEq, Repr

def RenderError.message : RenderError → String
  | notDot e => e.text
  | noLayout e => e.message

/-- Everything that drawing a text comes to. -/
structure Diagram (K : Type) where
  graph : Graph
  settings : Settings K
  layout : Layout K
  scene : Scene K

/-- Sizes nodes by their labels and shapes. -/
def Graph.sizer (g : Graph) (metrics : TextMetrics K) : Sizer K :=
  fun id lines => metrics.nodeSize lines (g.shape id)

/-- Lays out and draws a graph. -/
def Graph.diagram (g : Graph) (settings : Settings K) : Except RenderError (Diagram K) :=
  match g.layout settings (g.sizer settings.text) with
  | .error e => .error (.noLayout e)
  | .ok layout => .ok { graph := g, settings, layout, scene := layout.draw settings.text }

/-- Draws a text under fixed settings; the attributes of the graph do not set any. -/
def Diagram.fixed (source : String) (settings : Settings K) : Except RenderError (Diagram K) :=
  match Graph.ofDot source with
  | .error e => .error (.notDot e)
  | .ok g => g.diagram settings

/-- Draws a text under its own settings and what is set from outside. -/
def Diagram.ofDot (source : String) (overrides : Overrides K) : Except RenderError (Diagram K) :=
  match Graph.ofDot source with
  | .error e => .error (.notDot e)
  | .ok g => g.diagram (overrides.resolve g)

end Tiered
