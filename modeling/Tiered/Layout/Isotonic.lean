import Tiered.Scalar

/-!
Isotonic regression: the sequence without a descent that is closest to some targets in weighted
least squares, found by pooling neighbours that descend.
-/
namespace Tiered.Layout

variable {K : Type} [Scalar K]

/-- Neighbours that share one value. -/
structure Pool (K : Type) where
  value : K
  weight : K
  count : Nat
  deriving DecidableEq, Repr

/-- The weighted mean of two pools. -/
def Pool.merge (a b : Pool K) : Pool K :=
  { value := (a.value * a.weight + b.value * b.weight) / (a.weight + b.weight)
    weight := a.weight + b.weight
    count := a.count + b.count }

/-- Puts a pool behind others, the last of which comes first, and merges it with those above it. -/
def absorb (b : Pool K) : List (Pool K) → List (Pool K)
  | [] => [b]
  | a :: rest => if a.value ≤ b.value then b :: a :: rest else absorb (a.merge b) rest

/-- The pools of targets with their weights, the last one first. -/
def pools (targets : List (K × K)) : List (Pool K) :=
  targets.foldl (fun blocks t => absorb ⟨t.1, t.2, 1⟩ blocks) []

def isotonicFit (targets weights : List K) : List K :=
  (pools (targets.zip weights)).reverse.flatMap fun b => List.replicate b.count b.value

end Tiered.Layout
