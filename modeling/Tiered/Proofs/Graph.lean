import Mathlib.Logic.Relation
import Tiered.Graph

/-!
# Edges of graphs

When two edges have the same ends, when all ends are nodes, and when the edges have no cycle.
-/

namespace Tiered

theorem Edge.sameEnds_comm (directed : Bool) (e f : Edge) :
    e.sameEnds directed f = f.sameEnds directed e := by
  simp only [sameEnds, Bool.beq_comm (a := e.source), Bool.beq_comm (a := e.target)]
  cases directed <;> simp [Bool.and_comm]

namespace Graph

variable {g : Graph}

theorem unknownNode?_eq_none :
    g.unknownNode? = none ↔ ∀ e ∈ g.edges, e.source ∈ g.nodes ∧ e.target ∈ g.nodes := by
  rw [unknownNode?, Option.map_eq_none_iff, List.find?_eq_none]
  simp only [Bool.not_eq_true', Bool.not_eq_false, List.contains_iff_mem]
  constructor
  · intro h e he
    exact ⟨h _ (List.mem_flatMap.mpr ⟨e, he, by simp⟩), h _ (List.mem_flatMap.mpr ⟨e, he, by simp⟩)⟩
  · intro h id hid
    obtain ⟨e, he, hid⟩ := List.mem_flatMap.mp hid
    obtain ⟨hs, ht⟩ := h e he
    simp only [List.mem_cons, List.not_mem_nil, or_false] at hid
    rcases hid with rfl | rfl
    · exact hs
    · exact ht

/-- An edge leads from one node to another. -/
def Leads (g : Graph) (u v : String) : Prop :=
  u ≠ v ∧ ∃ e ∈ g.edges, e.source = u ∧ e.target = v

/-- The edges have no directed cycle, loops apart. -/
def Acyclic (g : Graph) : Prop := ∀ v, ¬ Relation.TransGen g.Leads v v

end Graph
end Tiered
