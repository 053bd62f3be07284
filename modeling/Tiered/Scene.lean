import Tiered.Geometry

/-!
Scenes: drawings made of a few kinds of elements, and the container that shows one scene at a time.
-/
namespace Tiered

variable {K : Type}

structure Style (K : Type) where
  fill : String
  stroke : String
  strokeWidth : K
  dash : Option String
  deriving DecidableEq, Repr

inductive MarkerKind where
  /-- A filled triangle. -/
  | normal
  /-- An open chevron. -/
  | vee
  deriving DecidableEq, Repr

structure Marker where
  id : String
  kind : MarkerKind
  color : String
  deriving DecidableEq, Repr

inductive Element (K : Type) where
  | group (className : String) (id : Option String) (children : List (Element K))
  | rect (rect : Rect K) (cornerRadius : K) (style : Style K)
  | ellipse (center : Point K) (rx ry : K) (style : Style K)
  | polygon (points : List (Point K)) (style : Style K)
  | path (points : List (Point K)) (style : Style K) (markerEnd : Option String)
  /-- Lines one below the other, centred on a point. -/
  | text (center : Point K) (lines : List String) (fontSize lineHeight : K) (color : String)

namespace Element

mutual

/-- The number of elements, groups and all that is in them included. -/
def count : Element K → Nat
  | group _ _ children => 1 + countAll children
  | _ => 1

def countAll : List (Element K) → Nat
  | [] => 0
  | e :: rest => count e + countAll rest

end

end Element

structure Scene (K : Type) where
  /-- The id of the whole drawing. -/
  anchor : String
  width : K
  height : K
  viewBox : Box K
  markers : List Marker
  root : Element K

namespace Scene

def standardAnchor : String := "graph-container"

/-- A scene of this extent with nothing in it. -/
def blank [Scalar K] (viewBox : Box K) : Scene K :=
  { anchor := standardAnchor
    width := viewBox.width
    height := viewBox.height
    viewBox
    markers := []
    root := .group "output" none [] }

def elementCount (s : Scene K) : Nat := s.root.count

end Scene

/-- Shows at most one scene. -/
structure Container (K : Type) where
  scene : Option (Scene K) := none

namespace Container

def mount (_ : Container K) (scene : Scene K) : Container K := ⟨some scene⟩

def isEmpty (c : Container K) : Bool := c.scene.isNone

end Container
end Tiered
