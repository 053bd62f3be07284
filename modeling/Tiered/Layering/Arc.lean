/-!
Arcs between nodes that are numbered from zero.
-/
namespace Tiered.Layering

/-- An arc from its first node to its second. -/
abbrev Arc := Nat × Nat

/-- For each of `n` nodes the ends of the arcs that leave it, in the order of the arcs. -/
def successors (n : Nat) (arcs : List Arc) : Array (List Nat) :=
  arcs.foldr (fun a lists => lists.modify a.1 (a.2 :: ·)) (Array.replicate n [])

/-- For each of `n` nodes the starts of the arcs that enter it, in the order of the arcs. -/
def predecessors (n : Nat) (arcs : List Arc) : Array (List Nat) :=
  successors n (arcs.map Prod.swap)

/-- Notes for each listed node where in the list it stands. -/
def note (places : Array Nat) (nodes : List Nat) : Array Nat :=
  nodes.zipIdx.foldl (fun places e => places.setIfInBounds e.1 e.2) places

end Tiered.Layering
