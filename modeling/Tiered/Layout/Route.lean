import Tiered.Geometry
import Tiered.Settings

/-!
Routes of edges in final coordinates: where they meet the outlines of nodes, loops, the arrowhead
at their end, and the point that a label is put on.
-/
namespace Tiered.Layout

variable {K : Type} [Scalar K]

/-- The outline that a node is drawn with. -/
structure Outline (K : Type) where
  rect : Rect K
  shape : Shape
  deriving DecidableEq, Repr

/-- Where the ray from the centre in the direction `(dx, dy)` leaves a rectangle, relative to the
centre. The rectangle reaches `hw` and `hh` to the sides. -/
def leaveRect (hw hh dx dy : K) : K × K :=
  if Scalar.abs dx * hh < Scalar.abs dy * hw then
    let h := if dy < 0 then -hh else hh
    (h * dx / dy, h)
  else
    let w := if dx < 0 then -hw else hw
    (w, w * dy / dx)

/-- Where the segment from the centre of an outline towards a point leaves the outline. An outline
without extent is left at its centre. -/
def clip (o : Outline K) (toward : Point K) : Point K :=
  let c := o.rect.center
  let dx := toward.x - c.x
  let dy := toward.y - c.y
  let hw := o.rect.width / 2
  let hh := o.rect.height / 2
  let onEllipse (rx ry : K) : Point K :=
    if rx == 0 || ry == 0 then c
    else
      let t := 1 / Scalar.sqrt (dx / rx * (dx / rx) + dy / ry * (dy / ry))
      ⟨c.x + t * dx, c.y + t * dy⟩
  if dx == 0 && dy == 0 then c
  else
    match o.shape with
    | .box | .plain =>
      let (sx, sy) := leaveRect hw hh dx dy
      ⟨c.x + sx, c.y + sy⟩
    | .ellipse => onEllipse hw hh
    | .circle => onEllipse (min hw hh) (min hw hh)
    | .diamond =>
      if hw == 0 || hh == 0 then c
      else
        let t := 1 / (Scalar.abs dx / hw + Scalar.abs dy / hh)
        ⟨c.x + t * dx, c.y + t * dy⟩

/-- Puts the last point on an outline, seen from the point before it. -/
def clipLast (o : Outline K) : List (Point K) → List (Point K)
  | [p, _] => [p, clip o p]
  | p :: rest => p :: clipLast o rest
  | [] => []

/-- Puts the first and the last point of a route between centres on the outlines of its ends. -/
def clipEnds (source target : Outline K) : List (Point K) → List (Point K)
  | _ :: second :: rest => clipLast target (clip source second :: second :: rest)
  | points => points

/-- How far the first loop of a node reaches out. -/
def loopReach : K := 20

/-- A loop that leaves a node and comes back to it, at its bottom if ranks run sideways and else
at its right. The `nth` loop of a node is drawn around those before it. -/
def selfLoop (rect : Rect K) (direction : Direction) (nth : Nat) : List (Point K) :=
  let c := rect.center
  let reach := loopReach * ((nth + 1 : Nat) : K)
  if direction.isHorizontal then
    let q := rect.width / 4
    let near := rect.bottom
    let far := near + reach
    [⟨c.x - q, near⟩, ⟨c.x - q, far⟩, ⟨c.x + q, far⟩, ⟨c.x + q, near⟩]
  else
    let q := rect.height / 4
    let near := rect.right
    let far := near + reach
    [⟨near, c.y - q⟩, ⟨far, c.y - q⟩, ⟨far, c.y + q⟩, ⟨near, c.y + q⟩]

structure Arrowhead (K : Type) where
  position : Point K
  /-- In degrees, clockwise from the first axis. -/
  angle : K
  deriving DecidableEq, Repr

/-- The arrowhead at the end of a route, in the direction of its last segment that has one. -/
def arrowhead (points : List (Point K)) : Arrowhead K :=
  match points.reverse with
  | [] => ⟨.origin, 0⟩
  | tip :: before =>
    match before.find? fun p => p.x != tip.x || p.y != tip.y with
    | some p => ⟨tip, Scalar.heading (tip.y - p.y) (tip.x - p.x)⟩
    | none => ⟨tip, 0⟩

/-- The lengths of the segments of a route. -/
def segmentLengths : List (Point K) → List K
  | p :: q :: rest => p.distance q :: segmentLengths (q :: rest)
  | _ => []

/-- The point `remaining` down a route, or `last` if the route is shorter. -/
def pointAlong (last : Point K) (remaining : K) : List (Point K) → Point K
  | p :: q :: rest =>
    let length := p.distance q
    if remaining ≤ length ∧ 0 < length then
      let t := remaining / length
      ⟨p.x + t * (q.x - p.x), p.y + t * (q.y - p.y)⟩
    else pointAlong last (remaining - length) (q :: rest)
  | _ => last

/-- The point halfway along a route. -/
def midpoint (points : List (Point K)) : Point K :=
  let total := (segmentLengths points).foldl (· + ·) 0
  if total == 0 then points.head?.getD .origin
  else pointAlong (points.getLast?.getD .origin) (total / 2) points

end Tiered.Layout
