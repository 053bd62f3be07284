import Tiered.Dot.Lexeme.Blanks

/-!
Words of a DOT text and the six of them that are keywords. A character beyond ASCII may stand in a
word unless it is blank.
-/
namespace Tiered.Dot

open Text (isBlank)

def isWordStart (c : Char) : Bool := c.isAlpha || c == '_' || 128 ≤ c.toNat

def isWordPart (c : Char) : Bool :=
  c.isAlphanum || c == '_' || (128 ≤ c.toNat && !isBlank c)

def word? : List Char → Option (List Char × List Char)
  | [] => none
  | c :: rest =>
    if isWordStart c then some (c :: rest.takeWhile isWordPart, rest.dropWhile isWordPart)
    else none

theorem length_word {s w r : List Char} (h : word? s = some (w, r)) : r.length < s.length := by
  cases s with
  | nil => cases h
  | cons c rest =>
    by_cases hc : isWordStart c
    · simp only [word?, hc, if_true, Option.some.injEq, Prod.mk.injEq] at h
      rw [← h.2]
      exact Nat.lt_succ_of_le (length_dropWhile_le _ _)
    · simp only [word?, hc] at h
      cases h

inductive Keyword where
  | strict
  | graph
  | digraph
  | subgraph
  | node
  | edge
  deriving DecidableEq, Repr

/-- Keywords are read in any ASCII letter case. -/
def keyword? (word : List Char) : Option Keyword :=
  match String.ofList (word.map Char.toLower) with
  | "strict" => some .strict
  | "graph" => some .graph
  | "digraph" => some .digraph
  | "subgraph" => some .subgraph
  | "node" => some .node
  | "edge" => some .edge
  | _ => none

end Tiered.Dot
