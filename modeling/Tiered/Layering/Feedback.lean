import Tiered.Layering.Arc

/-!
Breaking cycles. Nodes are put in a sequence by peeling sinks off its right end and sources off its
left end; when there are neither, the node with the most outgoing less incoming arcs goes to the
left. The arcs that lead back in this sequence are the ones to turn around.
-/
namespace Tiered.Layering

/-- The nodes put in sequence so far, from both ends. -/
structure Peeling where
  /-- The left end, its last node first. -/
  left : List Nat := []
  /-- The right end, its first node first. -/
  right : List Nat := []
  placed : Array Bool
  remaining : Nat
  /-- For each node how many arcs lead from it to nodes not placed yet. -/
  outDegree : Array Int
  /-- For each node how many arcs lead to it from nodes not placed yet. -/
  inDegree : Array Int

/-- Arcs by their two ends, without loops. -/
structure Network where
  size : Nat
  outgoing : Array (List Nat)
  incoming : Array (List Nat)

def Network.ofArcs (n : Nat) (arcs : List Arc) : Network :=
  let proper := arcs.filter fun a => a.1 ≠ a.2
  { size := n, outgoing := successors n proper, incoming := predecessors n proper }

namespace Peeling

def start (g : Network) : Peeling :=
  { placed := Array.replicate g.size false
    remaining := g.size
    outDegree := g.outgoing.map fun ws => (ws.length : Int)
    inDegree := g.incoming.map fun us => (us.length : Int) }

def isPlaced (p : Peeling) (v : Nat) : Bool := p.placed.getD v true

/-- Counts one less for each of the listed nodes. -/
def uncount (degrees : Array Int) (vs : List Nat) : Array Int :=
  vs.foldl (fun degrees v => degrees.modify v (· - 1)) degrees

/-- Places a node, whose arcs no longer count at their other ends. -/
def place (g : Network) (p : Peeling) (v : Nat) : Peeling :=
  { p with
    placed := p.placed.setIfInBounds v true
    remaining := p.remaining - 1
    inDegree := uncount p.inDegree (g.outgoing.getD v [])
    outDegree := uncount p.outDegree (g.incoming.getD v []) }

def toLeft (g : Network) (p : Peeling) (v : Nat) : Peeling :=
  { p.place g v with left := v :: p.left }

def toRight (g : Network) (p : Peeling) (v : Nat) : Peeling :=
  { p.place g v with right := v :: p.right }

/-- Not placed yet, and all nodes it leads to are. -/
def isSink (p : Peeling) (v : Nat) : Bool := !p.isPlaced v && p.outDegree.getD v 0 == 0

def isSource (p : Peeling) (v : Nat) : Bool := !p.isPlaced v && p.inDegree.getD v 0 == 0

/-- One look at every node in turn for sinks, which go to the right end. -/
def peelSinks (g : Network) (p : Peeling) : Peeling :=
  (List.range g.size).foldl (fun p v => if p.isSink v then p.toRight g v else p) p

def peelSources (g : Network) (p : Peeling) : Peeling :=
  (List.range g.size).foldl (fun p v => if p.isSource v then p.toLeft g v else p) p

/-- Arcs to nodes not placed yet less arcs from such nodes. -/
def surplus (p : Peeling) (v : Nat) : Int := p.outDegree.getD v 0 - p.inDegree.getD v 0

/-- The first of the nodes not placed yet that have the largest surplus. -/
def pick? (g : Network) (p : Peeling) : Option Nat :=
  ((List.range g.size).filter (!p.isPlaced ·)).foldl
    (fun best v => match best with
      | none => some v
      | some b => if p.surplus b < p.surplus v then some v else best)
    none

theorem remaining_foldl_le (step : Peeling → Nat → Peeling)
    (h : ∀ p v, (step p v).remaining ≤ p.remaining) (p : Peeling) (vs : List Nat) :
    (vs.foldl step p).remaining ≤ p.remaining := by
  induction vs generalizing p with
  | nil => exact Nat.le_refl _
  | cons v vs ih => exact Nat.le_trans (ih _) (h p v)

theorem remaining_peelSinks_le (g : Network) (p : Peeling) :
    (peelSinks g p).remaining ≤ p.remaining :=
  remaining_foldl_le _ (fun p v => by split <;> simp [toRight, place]) p _

theorem remaining_peelSources_le (g : Network) (p : Peeling) :
    (peelSources g p).remaining ≤ p.remaining :=
  remaining_foldl_le _ (fun p v => by split <;> simp [toLeft, place]) p _

/-- Peels until all nodes are placed. -/
def run (g : Network) (p : Peeling) : Peeling :=
  let q := peelSources g (peelSinks g p)
  if q.remaining < p.remaining then run g q
  else if 0 < q.remaining then
    match pick? g q with
    | some v => run g (q.toLeft g v)
    | none => q
  else q
termination_by p.remaining
decreasing_by
  · assumption
  · have h1 : q.remaining ≤ (peelSinks g p).remaining := remaining_peelSources_le g _
    have h2 := remaining_peelSinks_le g p
    change q.remaining - 1 < p.remaining
    omega

def sequence (p : Peeling) : List Nat := p.left.reverse ++ p.right

end Peeling

/-- For each arc whether it has to be turned around to leave no cycle. Loops are not. -/
def feedback (n : Nat) (arcs : List Arc) : List Bool :=
  let g := Network.ofArcs n arcs
  let sequence := (Peeling.run g (.start g)).sequence
  let places := note (Array.replicate n 0) sequence
  arcs.map fun (u, v) => u ≠ v && places.getD v 0 < places.getD u 0

end Tiered.Layering
