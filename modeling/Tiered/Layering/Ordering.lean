import Tiered.Layering.Crossings

/-!
Ordering the nodes of each layer so that few segments cross: sweeps that sort each layer by the
medians of its neighbours, exchanges of neighbours that pay off, and the best arrangement seen.
-/
namespace Tiered.Layering

/-- The median of places in ascending order. Of an even number of places the middle ones are
weighed by how close the places on their side are. -/
def median? (ps : List Nat) : Option Rat :=
  let n := ps.length
  let m := n / 2
  let nth (i : Nat) : Nat := ps.getD i 0
  if n = 0 then none
  else if n % 2 = 1 then some (nth m)
  else if n = 2 then some ((nth 0 + nth 1 : Nat) / 2)
  else
    let left := nth (m - 1) - nth 0
    let right := nth (n - 1) - nth m
    if left + right = 0 then some ((nth (m - 1) + nth m : Nat) / 2)
    else some ((nth (m - 1) * right + nth m * left : Nat) / (left + right : Nat))

/-- Puts the nodes of `sorted` into the slots that have a median. -/
def refill : List (Nat × Option Rat) → List Nat → List Nat
  | (_, some _) :: rest, v :: sorted => v :: refill rest sorted
  | (v, _) :: rest, sorted => v :: refill rest sorted
  | [], _ => []

/-- Sorts the nodes of a layer that have a median, equal ones in their old order; the others keep
their slots. -/
def reorder (layer : List Nat) (medians : List (Option Rat)) : List Nat :=
  let slots := layer.zip medians
  let movable := slots.filterMap fun (v, m) => m.map (v, ·)
  let sorted := movable.mergeSort fun a b => a.2 ≤ b.2
  refill slots (sorted.map (·.1))

namespace Layered

variable (g : Layered)

/-- Reorders layers one after the other by the places of the neighbours of each node. -/
def sweepFrom (neighbours : Nat → List Nat) (places : Array Nat) : Layers → Layers
  | [] => []
  | layer :: rest =>
    let medians := layer.map fun v =>
      median? ((neighbours v).map (places.getD · 0)).mergeSort
    let sorted := reorder layer medians
    sorted :: sweepFrom neighbours (note places sorted) rest

/-- One sweep over all layers but the first, from the top down or from the bottom up. -/
def sweep (downward : Bool) (layers : Layers) : Layers :=
  let behindFirst (neighbours : Nat → List Nat) : Layers → Layers
    | [] => []
    | first :: rest => first :: sweepFrom neighbours (g.places layers) rest
  if downward then behindFirst g.above layers else (behindFirst g.below layers.reverse).reverse

/-- Goes through a layer and exchanges neighbours where that leaves fewer crossings. -/
def exchange (places : Array Nat) : List Nat → List Nat
  | v :: w :: rest =>
    if g.pairCrossings places w v < g.pairCrossings places v w then
      w :: exchange places (v :: rest)
    else v :: exchange places (w :: rest)
  | layer => layer
termination_by layer => layer.length

def exchangeFrom (places : Array Nat) : Layers → Layers
  | [] => []
  | layer :: rest =>
    let layer := g.exchange places layer
    layer :: exchangeFrom (note places layer) rest

/-- Exchanges neighbours in all layers as long as that leaves fewer crossings. -/
def transpose (layers : Layers) : Layers :=
  let next := g.exchangeFrom (g.places layers) layers
  if g.crossings next < g.crossings layers then transpose next else next
termination_by g.crossings layers

/-- How many sweeps may pass without a better arrangement. -/
def patience : Nat := 4

def maxSweeps : Nat := 24

structure Search where
  layers : Layers
  best : Layers
  /-- The crossings of the best arrangement. -/
  fewest : Nat
  /-- The sweeps since it was found. -/
  stale : Nat := 0
  downward : Bool := true

def Search.step (s : Search) : Search :=
  let layers := g.transpose (g.sweep s.downward s.layers)
  let crossings := g.crossings layers
  if crossings < s.fewest then
    { layers, best := layers, fewest := crossings, stale := 0, downward := !s.downward }
  else { s with layers, stale := s.stale + 1, downward := !s.downward }

/-- Sweeps until there is no crossing, patience is spent, or all sweeps are done. -/
def Search.run : Nat → Search → Search
  | 0, s => s
  | sweeps + 1, s =>
    if 0 < s.fewest && s.stale < patience then run sweeps (s.step g) else s

/-- The best arrangement found from a first one, and its crossings. -/
def minimize (layers : Layers) : Layers × Nat :=
  let found := Search.run g maxSweeps { layers, best := layers, fewest := g.crossings layers }
  (found.best, found.fewest)

end Layered
end Tiered.Layering
