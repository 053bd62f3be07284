import Tiered.Scalar

/-!
Points, rectangles and boxes in the plane. The second axis points down.
-/
namespace Tiered

variable {K : Type}

structure Point (K : Type) where
  x : K
  y : K
  deriving DecidableEq, Repr, Inhabited

/-- A rectangle given by its top left corner. -/
structure Rect (K : Type) where
  x : K
  y : K
  width : K
  height : K
  deriving DecidableEq, Repr, Inhabited

/-- The extent of a drawing. -/
structure Box (K : Type) where
  minX : K
  minY : K
  maxX : K
  maxY : K
  deriving DecidableEq, Repr, Inhabited

namespace Point

variable [Scalar K]

def origin : Point K := ⟨0, 0⟩

def distance (p q : Point K) : K := Scalar.hypot (q.x - p.x) (q.y - p.y)

def shift (p : Point K) (dx dy : K) : Point K := ⟨p.x + dx, p.y + dy⟩

end Point

namespace Rect

variable [Scalar K]

def centered (c : Point K) (width height : K) : Rect K :=
  ⟨c.x - width / 2, c.y - height / 2, width, height⟩

def center (r : Rect K) : Point K := ⟨r.x + r.width / 2, r.y + r.height / 2⟩

def right (r : Rect K) : K := r.x + r.width

def bottom (r : Rect K) : K := r.y + r.height

/-- The interiors meet; touching sides do not count. -/
def overlaps (r s : Rect K) : Bool :=
  r.x < s.right && s.x < r.right && r.y < s.bottom && s.y < r.bottom

def shift (r : Rect K) (dx dy : K) : Rect K := { r with x := r.x + dx, y := r.y + dy }

/-- The two corners that span the rectangle. -/
def corners (r : Rect K) : List (Point K) := [⟨r.x, r.y⟩, ⟨r.right, r.bottom⟩]

end Rect

namespace Box

variable [Scalar K]

def empty : Box K := ⟨0, 0, 0, 0⟩

def width (b : Box K) : K := b.maxX - b.minX

def height (b : Box K) : K := b.maxY - b.minY

def ofPoint (p : Point K) : Box K :=
  ⟨Scalar.least p.x, Scalar.least p.y, Scalar.greatest p.x, Scalar.greatest p.y⟩

/-- The box grown until it holds `p`. -/
def cover (b : Box K) (p : Point K) : Box K :=
  ⟨min b.minX p.x, min b.minY p.y, max b.maxX p.x, max b.maxY p.y⟩

/-- The least box around the points; of none, the box at the origin. -/
def around : List (Point K) → Box K
  | [] => empty
  | p :: rest => rest.foldl cover (ofPoint p)

end Box
end Tiered
