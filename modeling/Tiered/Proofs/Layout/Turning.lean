import Tiered.Proofs.Guarded.Feedback
import Tiered.Proofs.Layout.Ranks

/-!
# Which arcs are turned around

* `feedback_breaksCycles`: peeling gets through with counters that are right all the while, and
  turning arcs around leaves no cycle, though at most half of them are turned, and none if there is
  no cycle;
* `turned_betweenCycles`: an arc that is turned has cycles on both sides. Peeling goes over the
  whole graph at once and picks nodes by their surplus alone, so the arc need not lie on a cycle
  (`turned_offCycle`), unless all cycles hang together.
-/

namespace Tiered.Layering

open Layout (oriented)

/-- Some arcs are marked to be turned around. -/
structure BreaksCycles (n : Nat) (arcs : List Arc) : Prop where
  /-- No access is out of range, and no round of peeling is without progress. -/
  guarded : feedback? n arcs = some (feedback n arcs)
  /-- Between any two nodes placed, the counters are the degrees among the nodes that are left. -/
  counted : ∀ p, Peeling.Steps (.ofArcs n arcs) (.start (.ofArcs n arcs)) p → p.Counted n arcs
  steps : Peeling.Steps (.ofArcs n arcs) (.start (.ofArcs n arcs))
    (Peeling.run (.ofArcs n arcs) (.start (.ofArcs n arcs)))
  length : (feedback n arcs).length = arcs.length
  /-- Peeling ends, and each node is at one place of the sequence. -/
  done : (Peeling.run (.ofArcs n arcs) (.start (.ofArcs n arcs))).remaining = 0
  placed : (Peeling.run (.ofArcs n arcs) (.start (.ofArcs n arcs))).sequence.Perm (List.range n)
  /-- No way along the arcs that are left leads back to its start. -/
  acyclic : ∀ v, ¬ Relation.TransGen
    (fun u w => some (u, w) ∈ oriented arcs (feedback n arcs)) v v
  half : 2 * (feedback n arcs).count true ≤ (arcs.filter fun a => a.1 ≠ a.2).length
  kept : Acyclic arcs → ∀ flip ∈ feedback n arcs, flip = false

/-- **Turning around breaks all cycles.** Peeling ends with each node placed once. It takes at most
half of the arcs that are no loops to be turned, and none where there is no cycle. -/
theorem feedback_breaksCycles {n : Nat} {arcs : List Arc}
    (hb : ∀ a ∈ arcs, a.1 < n ∧ a.2 < n) : BreaksCycles n arcs := by
  obtain ⟨hvalid, hdone⟩ := (Peeling.valid_start (.ofArcs n arcs)).run rfl
  exact {
    guarded := feedback?_eq hb
    counted := fun _ hsteps => (Peeling.counted_start hb).of_steps hsteps
    steps := Peeling.steps_run rfl (Peeling.valid_start (.ofArcs n arcs))
    length := by rw [feedback_eq, List.length_map]
    done := hdone
    placed := hvalid.perm hdone
    acyclic := not_transGen_self (placeOf n arcs) fun u v h =>
      (Layout.mem_oriented_feedback hb h).1
    half := two_mul_count_feedback_le hb
    kept := feedback_of_acyclic hb }

/-- Parallel arcs, a cycle of two, one of three, and a loop. -/
theorem feedback_breaksCycles_tangled :
    (∀ a ∈ [(0, 1), (0, 1), (1, 0), (1, 2), (2, 0), (2, 2)], a.1 < 3 ∧ a.2 < 3) ∧
      BreaksCycles 3 [(0, 1), (0, 1), (1, 0), (1, 2), (2, 0), (2, 2)] := by
  have hb : ∀ a ∈ [(0, 1), (0, 1), (1, 0), (1, 2), (2, 0), (2, 2)], a.1 < 3 ∧ a.2 < 3 := by decide
  exact ⟨hb, feedback_breaksCycles hb⟩

/-! ## Arcs that are turned -/

/-- All cycles lie in one part of the arcs from which every node can be reached from every other. -/
def CyclesHang (arcs : List Arc) : Prop :=
  ∀ c d, Relation.TransGen (Leads arcs) c c → Relation.TransGen (Leads arcs) d d →
    Relation.ReflTransGen (Leads arcs) c d

/-- **Arcs are only turned around between cycles.** A cycle leads to the start of an arc that is
turned, and its end leads to a cycle; where all cycles hang together, the arc lies on one. -/
theorem turned_betweenCycles {n : Nat} {arcs : List Arc} (hb : ∀ a ∈ arcs, a.1 < n ∧ a.2 < n)
    {a : Arc} (h : (a, true) ∈ arcs.zip (feedback n arcs)) :
    Leads arcs a.1 a.2 ∧
      (∃ c, Relation.TransGen (Leads arcs) c c ∧ Relation.ReflTransGen (Leads arcs) c a.1) ∧
      (∃ d, Relation.ReflTransGen (Leads arcs) a.2 d ∧ Relation.TransGen (Leads arcs) d d) ∧
      (CyclesHang arcs → Relation.ReflTransGen (Leads arcs) a.2 a.1) := by
  obtain ⟨ha, hne, -⟩ := mem_zip_feedback.mp h
  obtain ⟨c, d, hc, hbehind, hahead, hd⟩ := exists_cycles_of_feedback hb h
  refine ⟨⟨ha, hne⟩, ⟨c, hc, hbehind⟩, ⟨d, hahead, hd⟩, fun hhang => ?_⟩
  exact hahead.trans ((hhang d c hd hc).trans hbehind)

/-- Two cycles. Nodes four and five lead to the cycle of the others, in which node zero has the
largest surplus. -/
def twoCycles : List Arc :=
  [(0, 1), (0, 2), (0, 3), (1, 2), (2, 3), (3, 0), (4, 5), (5, 4), (4, 0)]

theorem turned_betweenCycles_twoCycles :
    (∀ a ∈ twoCycles, a.1 < 6 ∧ a.2 < 6) ∧ ((4, 0), true) ∈ twoCycles.zip (feedback 6 twoCycles) ∧
      (∃ c, Relation.TransGen (Leads twoCycles) c c ∧
        Relation.ReflTransGen (Leads twoCycles) c 4) ∧
      ∃ d, Relation.ReflTransGen (Leads twoCycles) 0 d ∧
        Relation.TransGen (Leads twoCycles) d d := by
  have hb : ∀ a ∈ twoCycles, a.1 < 6 ∧ a.2 < 6 := by decide
  have hturned : ((4, 0), true) ∈ twoCycles.zip (feedback 6 twoCycles) := by decide +kernel
  obtain ⟨-, hbehind, hahead, -⟩ := turned_betweenCycles hb hturned
  exact ⟨hb, hturned, hbehind, hahead⟩

/-- The arc from the first cycle to the second is turned around, though it lies on no cycle. -/
theorem turned_offCycle :
    ((4, 0), true) ∈ twoCycles.zip (feedback 6 twoCycles) ∧
      ¬ Relation.ReflTransGen (Leads twoCycles) 0 4 := by
  refine ⟨by decide +kernel, fun hway => ?_⟩
  have hstays : ∀ {v : Nat}, Relation.ReflTransGen (Leads twoCycles) 0 v → v < 4 := by
    intro v hway
    induction hway with
    | refl => decide
    | @tail u w _ hlead ih =>
      have hout : ∀ a ∈ twoCycles, a.1 < 4 → a.2 < 4 := by decide
      exact hout _ hlead.1 ih
  exact absurd (hstays hway) (by decide)

end Tiered.Layering
