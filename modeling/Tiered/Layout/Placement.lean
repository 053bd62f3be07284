import Tiered.Layering.Layered
import Tiered.Layout.Isotonic

/-!
Coordinates. One axis runs along the layers, the other from rank to rank. Along a layer, nodes are
moved towards their neighbours in the layers above and below, never closer than they may be.
-/
namespace Tiered.Layout

open Layering (Layered Layers)

variable {K : Type} [Scalar K]

/-- The gaps that nodes and bends of edges keep in a layer. -/
structure Spacing (K : Type) where
  nodeSep : K
  edgeSep : K
  deriving DecidableEq, Repr

/-- The gap between two neighbours, given which of them are virtual. -/
def Spacing.between (s : Spacing K) : Bool → Bool → K
  | false, false => s.nodeSep
  | true, true => s.edgeSep
  | _, _ => (s.nodeSep + s.edgeSep) / 2

/-- How hard a segment pulls its ends together; within a long edge hardest, to keep it straight. -/
def pull (g : Layered) (v w : Nat) : K :=
  match g.isVirtual v, g.isVirtual w with
  | false, false => 1
  | true, true => 8
  | _, _ => 2

/-- The distances that the neighbours of a layer keep between their centres. -/
def gaps (g : Layered) (widths : Array K) (spacing : Spacing K) : List Nat → List K
  | a :: b :: rest =>
    ((widths.getD a 0 + widths.getD b 0) / 2 + spacing.between (g.isVirtual a) (g.isVirtual b)) ::
      gaps g widths spacing (b :: rest)
  | _ => []

/-- The running sums of gaps, from `start` on. -/
def offsets (start : K) : List K → List K
  | [] => [start]
  | gap :: rest => start :: offsets (start + gap) rest

/-- Writes the coordinates of some nodes. -/
def assign (xs : Array K) (nodes : List Nat) (values : List K) : Array K :=
  (nodes.zip values).foldl (fun xs e => xs.setIfInBounds e.1 e.2) xs

/-- The weighted sum of the coordinates that a node is pulled to, and the sum of the weights. -/
def pulls (g : Layered) (xs : Array K) (v : Nat) : K × K :=
  (g.above v ++ g.below v).foldl
    (fun sums w => (sums.1 + pull g v w * xs.getD w 0, sums.2 + pull g v w)) (0, 0)

/-- Where a node wants to be, and how much. A node without neighbours wants to stay, but gives
way. -/
def wish (g : Layered) (xs : Array K) (v : Nat) : K × K :=
  let (sum, total) := pulls g xs v
  if 0 < total then (sum / total, total) else (xs.getD v 0, 1 / 100)

/-- Moves the nodes of one layer as close to their wishes as the gaps allow. -/
def placeLayer (g : Layered) (xs : Array K) (layer : List Nat) (gaps : List K) : Array K :=
  let along := offsets 0 gaps
  let wishes := layer.map (wish g xs)
  let targets := wishes.zipWith (fun wish offset => wish.1 - offset) along
  let fitted := isotonicFit targets (wishes.map (·.2))
  assign xs layer (fitted.zipWith (· + ·) along)

/-- Packs every layer from zero on. -/
def packed (size : Nat) (layers : List (List Nat × List K)) : Array K :=
  layers.foldl (fun xs l => assign xs l.1 (offsets 0 l.2)) (Array.replicate size 0)

def placeLayers (g : Layered) (xs : Array K) (layers : List (List Nat × List K)) : Array K :=
  layers.foldl (fun xs l => placeLayer g xs l.1 l.2) xs

/-- How many times all layers are placed, by turns from the top down and from the bottom up. -/
def passes : Nat := 12

/-- The coordinates of all nodes along their layers. -/
def alongLayers (g : Layered) (layers : Layers) (widths : Array K) (spacing : Spacing K) :
    Array K :=
  let spaced := layers.map fun layer => (layer, gaps g widths spacing layer)
  (List.range passes).foldl
    (fun xs pass => placeLayers g xs (if pass % 2 = 0 then spaced else spaced.reverse))
    (packed g.size spaced)

/-- The centres of ranks of these depths, the first of which begins at `top`. -/
def centres (rankSep top : K) : List K → List K
  | [] => []
  | d :: rest => (top + d / 2) :: centres rankSep (top + (d + rankSep)) rest

/-- The depth of each rank, which is that of its deepest node. -/
def rankDepths (g : Layered) (heights : Array K) : Array K :=
  (List.range g.size).foldl
    (fun depths v => depths.modify (g.rankOf v) (max · (heights.getD v 0)))
    (Array.replicate g.depth 0)

/-- The coordinates of all nodes from rank to rank. -/
def acrossLayers (g : Layered) (heights : Array K) (rankSep : K) : Array K :=
  let middle := (centres rankSep 0 (rankDepths g heights).toList).toArray
  g.rank.map (middle.getD · 0)

end Tiered.Layout
