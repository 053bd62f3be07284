import Tiered.Layering.Arc

/-!
Layered graphs. An edge over more than one rank becomes a chain with a virtual node in each rank
between its ends, so that every segment joins neighbouring ranks.
-/
namespace Tiered.Layering

structure Layered where
  /-- The real nodes are the first ones; all others are virtual. -/
  real : Nat
  rank : Array Nat
  /-- For each edge the nodes from its upper to its lower end; nothing for a loop. -/
  chains : List (Option (List Nat))
  /-- For each node the nodes above it, once per segment. -/
  up : Array (List Nat)
  /-- For each node the nodes below it, once per segment. -/
  down : Array (List Nat)

/-- The layers from the top, each a list of its nodes from one side to the other. -/
abbrev Layers := List (List Nat)

namespace Layered

/-- The segments of a chain. -/
def segments (chain : List Nat) : List Arc := chain.zip chain.tail

/-- Adds the virtual nodes of an edge to those in `ranks`, and its chain to those before it. -/
def addChain (state : Array Nat × List (Option (List Nat))) (edge : Option Arc) :
    Array Nat × List (Option (List Nat)) :=
  let (ranks, chains) := state
  match edge with
  | none => (ranks, none :: chains)
  | some (upper, lower) =>
    let first := ranks.getD upper 0 + 1
    let count := ranks.getD lower 0 - first
    let chain := upper :: List.range' ranks.size count ++ [lower]
    (ranks ++ List.range' first count, some chain :: chains)

/-- The layered graph of edges that lead down. Loops are given as `none`. -/
def ofEdges (ranks : Array Nat) (edges : List (Option Arc)) : Layered :=
  let (rank, reversed) := edges.foldl addChain (ranks, [])
  let chains := reversed.reverse
  let arcs := (chains.filterMap fun c => c).flatMap segments
  { real := ranks.size, rank, chains
    up := predecessors rank.size arcs
    down := successors rank.size arcs }

variable (g : Layered)

def size : Nat := g.rank.size

def isVirtual (v : Nat) : Bool := g.real ≤ v

def rankOf (v : Nat) : Nat := g.rank.getD v 0

def above (v : Nat) : List Nat := g.up.getD v []

def below (v : Nat) : List Nat := g.down.getD v []

/-- The number of layers. -/
def depth : Nat := g.rank.foldl (fun d r => max d (r + 1)) 0

/-- For each node where in its layer it stands. -/
def places (layers : Layers) : Array Nat :=
  layers.foldl note (Array.replicate g.size 0)

/-! The first arrangement: depth first from the top rank down, nodes in the order of their
numbers. -/

structure Visit where
  seen : Array Bool
  /-- The nodes seen, the last one first. -/
  trail : List Nat := []

/-- Visits a node that is not seen yet, and then the nodes below it, `levels` ranks deep. -/
def visit : Nat → Visit → Nat → Visit
  | 0, state, _ => state
  | levels + 1, state, v =>
    if state.seen.getD v true then state
    else
      let seen := { seen := state.seen.setIfInBounds v true, trail := v :: state.trail }
      (g.below v).foldl (visit levels) seen

/-- All nodes, those of upper ranks first. -/
def byRank : List Nat :=
  (List.range g.size).mergeSort fun a b => g.rankOf a ≤ g.rankOf b

def trail : List Nat :=
  (g.byRank.foldl (g.visit g.depth) { seen := Array.replicate g.size false }).trail

/-- The layers of the first arrangement. -/
def arrange : Layers :=
  (g.trail.foldl (fun layers v => layers.modify (g.rankOf v) (v :: ·))
    (Array.replicate g.depth [])).toList

end Layered
end Tiered.Layering
