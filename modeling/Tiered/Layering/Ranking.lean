import Tiered.Layering.Arc

/-!
Ranks. Each node is as far down as the longest way to it; a node that nothing leads to is then
pulled down to the nearest of the nodes it leads to.
-/
namespace Tiered.Layering

/-- The lower node has to be at least `span` ranks below the upper one. -/
structure Span where
  upper : Nat
  lower : Nat
  span : Nat
  deriving DecidableEq, Repr

/-- Moves the lower node down as far as the span asks. -/
def relax (ranks : Array Nat) (s : Span) : Array Nat :=
  ranks.modify s.lower (max · (ranks.getD s.upper 0 + s.span))

/-- Relaxes all spans over and over, at most `rounds` times, until nothing moves. -/
def settleRanks (spans : List Span) : Nat → Array Nat → Array Nat
  | 0, ranks => ranks
  | rounds + 1, ranks =>
    let moved := spans.foldl relax ranks
    if moved = ranks then ranks else settleRanks spans rounds moved

/-- For each of `n` nodes the length of the longest way to it. Without a cycle, no way has more
than `n` nodes. -/
def longestWays (n : Nat) (spans : List Span) : Array Nat :=
  settleRanks spans n (Array.replicate n 0)

/-- Where a node without incoming spans belongs. -/
def pulledRank (ways : Array Nat) (spans : List Span) (v : Nat) : Nat :=
  if spans.any (·.lower == v) then ways.getD v 0
  else
    let room := (spans.filter (·.upper == v)).map fun s => ways.getD s.lower 0 - s.span
    room.min?.getD (ways.getD v 0)

/-- The ranks of `n` nodes, of which the least is zero. The spans must have no cycle. -/
def ranking (n : Nat) (spans : List Span) : Array Nat :=
  let ways := longestWays n spans
  let pulled := (List.range n).map (pulledRank ways spans)
  let least := pulled.min?.getD 0
  (pulled.map (· - least)).toArray

end Tiered.Layering
