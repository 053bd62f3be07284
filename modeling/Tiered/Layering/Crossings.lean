import Tiered.Layering.Layered
import Tiered.Layering.Tally

/-!
How often segments cross. Two segments between the same two layers cross when their upper ends are
in one order and their lower ends in the other.
-/
namespace Tiered.Layering

/-- How often a place of a list stands before a smaller one; all places are below `bound`. -/
def inversions (bound : Nat) (places : List Nat) : Nat :=
  go (.empty bound) 0 places
where
  /-- Each place is behind the larger ones among the `seen` places before it. -/
  go (t : Tally) (seen : Nat) : List Nat → Nat
    | [] => 0
    | p :: rest => (seen - t.upTo (p + 1)) + go (t.add (p + 1)) (seen + 1) rest

namespace Layered

variable (g : Layered)

/-- The places of the lower ends of all segments below a layer, in the order of their upper ends
and then their own. -/
def lowerPlaces (places : Array Nat) (layer : List Nat) : List Nat :=
  layer.flatMap fun v => ((g.below v).map (places.getD · 0)).mergeSort

def crossingsFrom (places : Array Nat) : Layers → Nat
  | layer :: next :: rest =>
    inversions next.length (g.lowerPlaces places layer) + crossingsFrom places (next :: rest)
  | _ => 0

/-- How many pairs of segments cross. -/
def crossings (layers : Layers) : Nat := g.crossingsFrom (g.places layers) layers

/-- How many segments at two neighbours of a layer cross when `v` stands before `w`. -/
def pairCrossings (places : Array Nat) (v w : Nat) : Nat :=
  let count (xs ys : List Nat) : Nat :=
    xs.foldr (fun x n => (ys.countP fun y => places.getD y 0 < places.getD x 0) + n) 0
  count (g.above v) (g.above w) + count (g.below v) (g.below w)

end Layered
end Tiered.Layering
