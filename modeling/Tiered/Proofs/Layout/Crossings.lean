import Tiered.Proofs.Layering.Search
import Tiered.Proofs.Layout.Ranks

/-!
# A layout reports how many segments cross

* `Minimized`: what the search does to the first arrangement of a layered graph;
* `Reports`: the number that comes with a layout is how many pairs of segments cross if the nodes
  stand as the layout has them.
-/

namespace Tiered

namespace Layering

/-- The search ends with an arrangement of the same nodes, no worse than the first one, and knows
how many segments cross in it. The graph itself is only read. -/
structure Layered.Minimized (g : Layered) : Prop where
  permuted : Permuted (g.minimize g.arrange).1 g.arrange
  complete : g.Complete (g.minimize g.arrange).1
  crossings : (g.minimize g.arrange).2 = g.crossings (g.minimize g.arrange).1
  pairs : (g.minimize g.arrange).2 = g.crossingPairs (g.minimize g.arrange).1
  most : (g.minimize g.arrange).2 ≤ g.crossings g.arrange
  settles : ∀ layers, Permuted layers g.arrange → g.Settles layers (g.transpose layers)

theorem minimized_ofEdges {ranks : Array Nat} {edges : List (Option Arc)}
    (h : LeadDown ranks edges) : (Layered.ofEdges ranks edges).Minimized := by
  have hg := Layered.joined_ofEdges h
  have hfirst := Layered.complete_arrange (.ofEdges ranks edges)
  have hfound := hfirst.minimize
  obtain ⟨hcrossings, hmost⟩ := Layered.minimize_truthful (.ofEdges ranks edges) (Layered.arrange _)
  constructor
  · exact Layered.minimize_permuted _ _
  · exact hfound
  · exact hcrossings
  · exact hcrossings.trans (Layered.crossings_eq hg hfound)
  · exact hmost
  · exact fun layers hp => Layered.transpose_settles hg (hfirst.permuted hp)

end Layering

namespace Layout

open Layering (Arc Layered Layers LeadDown)

section Report

variable {K : Type}

/-- The ranks of the nodes, by their numbers. -/
def ranks (l : Layout K) : Array Nat := (l.nodes.map (·.rank)).toArray

/-- An edge runs down an arc, or up if it was turned around. A loop runs nowhere. -/
def Runs (l : Layout K) (e : RoutedEdge K) : Option Arc → Prop
  | none => e.source = e.target
  | some a => e.source ≠ e.target ∧
      (l.nodes.map (·.id))[a.1]? = some (if e.reversed then e.target else e.source) ∧
      (l.nodes.map (·.id))[a.2]? = some (if e.reversed then e.source else e.target)

/-- The edges run down arcs, the nodes stand where the layers have them, and as many pairs of
segments cross there as the layout says. -/
structure Reports (l : Layout K) (arcs : List (Option Arc)) (layers : Layers) : Prop where
  runs : List.Forall₂ l.Runs l.edges arcs
  down : LeadDown l.ranks arcs
  complete : (Layered.ofEdges l.ranks arcs).Complete layers
  order : ∀ v (hv : v < l.nodes.length),
    l.nodes[v].order = (Layered.ofEdges l.ranks arcs).place layers v
  crossings : l.crossings = (Layered.ofEdges l.ranks arcs).crossingPairs layers

end Report

section Arranged

variable {K : Type} [Scalar K] {g : Graph} {settings : Settings K} {sizes : List (K × K)}
  {arcs : List Arc}

variable (hsizes : sizes.length = g.nodes.length)

include hsizes

theorem ranks_arranged (settings : Settings K) (arcs : List Arc) :
    (arranged g settings sizes arcs).ranks = nodeRanks g arcs := by
  obtain ⟨dx, dy, hget⟩ := exists_getElem_nodes g settings sizes arcs
  have hlength := length_arranged_nodes settings arcs hsizes
  refine Array.ext (by simp [ranks, hlength, size_nodeRanks]) fun v hv hr => ?_
  have hg : v < g.nodes.length := by rwa [size_nodeRanks] at hr
  simp only [ranks, List.getElem_toArray, List.getElem_map]
  rw [hget v (hlength ▸ hg) hg (hsizes ▸ hg), ← getD_of_lt hr 0]
  rfl

theorem reports_arranged (settings : Settings K)
    (harcs : List.Forall₂ (fun e arc => arcOf g e = .ok arc) g.edges arcs) :
    (arranged g settings sizes arcs).Reports (downArcs g arcs) (finalLayers g arcs) := by
  have hdown := leadDown_downArcs harcs
  have hgraph : Layered.ofEdges (nodeRanks g arcs) (downArcs g arcs) = layeredGraph g arcs := rfl
  have hlength := length_arranged_nodes settings arcs hsizes
  constructor
  · refine List.forall₂_iff_get.mpr ⟨?_, fun i hi hd => ?_⟩
    · rw [length_arranged_edges settings sizes harcs.length_eq.symm, length_downArcs,
        harcs.length_eq]
    · have ha : i < arcs.length := length_downArcs g arcs ▸ hd
      have he : i < g.edges.length := harcs.length_eq ▸ ha
      have ht : i < (turned g arcs).length := by rwa [turned, length_feedback]
      obtain ⟨hedge, hreversed⟩ := getElem_arranged_edges hi he ha ht
      obtain ⟨hsource, htarget, hloop⟩ := arcOf_eq_ok (getElem_arcs harcs he ha)
      rw [← hedge] at hsource htarget hloop
      simp only [List.get_eq_getElem]
      rw [getElem_downArcs hd ha ht]
      split
      · rename_i heq
        rw [heq, htarget] at hsource
        exact (Option.some.inj hsource).symm
      · rename_i hne
        split
        · rename_i hflip
          refine ⟨fun heq => hne (hloop heq), ?_⟩
          rw [ids_arranged settings arcs hsizes, hreversed, hflip]
          exact ⟨htarget, hsource⟩
        · rename_i hkeep
          refine ⟨fun heq => hne (hloop heq), ?_⟩
          rw [ids_arranged settings arcs hsizes, hreversed, Bool.eq_false_of_not_eq_true hkeep]
          exact ⟨hsource, htarget⟩
  · rwa [ranks_arranged hsizes]
  · rw [ranks_arranged hsizes]
    exact complete_finalLayers g arcs
  · intro v hv
    have hg : v < g.nodes.length := hlength ▸ hv
    obtain ⟨dx, dy, hget⟩ := exists_getElem_nodes g settings sizes arcs
    rw [ranks_arranged hsizes, hget v hv hg (hsizes ▸ hg)]
    rfl
  · rw [ranks_arranged hsizes]
    exact (Layering.minimized_ofEdges hdown).pairs

end Arranged

/-- A layout without nodes has nothing that could cross. -/
theorem reports_emptyLayout {K : Type} [Scalar K] (g : Graph) (settings : Settings K) :
    (g.emptyLayout settings).Reports [] (Layered.arrange (.ofEdges #[] [])) where
  runs := .nil
  down := fun _ h => nomatch h
  complete := Layered.complete_arrange _
  order := fun _ hv => absurd hv (Nat.not_lt_zero _)
  crossings := rfl

end Layout

/-- **Crossings are as reported.** The search through the arrangements of any layered graph ends
with an arrangement of the same nodes that is no worse than the first one, and with the number of
its crossings; the number that a layout reports is that of the pairs of segments which cross in the
order it reports. -/
theorem Graph.layout_crossings :
    (∀ (ranks : Array Nat) (edges : List (Option Layering.Arc)), Layering.LeadDown ranks edges →
      (Layering.Layered.ofEdges ranks edges).Minimized) ∧
    ∀ {K : Type} [Scalar K] (g : Graph) (settings : Settings K) (sizer : Sizer K) (l : Layout K),
      g.layout settings sizer = .ok l → ∃ arcs layers, l.Reports arcs layers := by
  refine ⟨fun ranks edges h => Layering.minimized_ofEdges h, ?_⟩
  intro K _ g settings sizer l h
  obtain ⟨-, ⟨-, rfl⟩ | ⟨sizes, arcs, hsizes, harcs, rfl⟩⟩ := Graph.layout_eq_ok h
  · exact ⟨_, _, Layout.reports_emptyLayout g settings⟩
  · exact ⟨_, _, Layout.reports_arranged hsizes.length_eq.symm settings harcs⟩

/-- Two ranks of two nodes, and an edge between any two of them. -/
def crossed : Graph :=
  { directed := true
    nodes := ["a", "b", "c", "d"]
    edges := [⟨"a", "d", ∅⟩, ⟨"a", "c", ∅⟩, ⟨"b", "c", ∅⟩, ⟨"b", "d", ∅⟩] }

theorem Graph.layout_crossings_crossed :
    (Layering.Layered.ofEdges #[0, 0, 1, 1]
      [some (0, 3), some (0, 2), some (1, 2), some (1, 3)]).Minimized ∧
    ∃ l : Layout ℚ, crossed.layout .standard (fun _ _ => (40, 20)) = .ok l ∧
      ∃ arcs layers, l.Reports arcs layers := by
  have hdown : Layering.LeadDown #[0, 0, 1, 1]
      [some (0, 3), some (0, 2), some (1, 2), some (1, 3)] := by
    intro a ha
    simp only [List.mem_cons, Option.some.injEq, List.not_mem_nil, or_false] at ha
    rcases ha with rfl | rfl | rfl | rfl <;> decide
  have hlayout : crossed.layout .standard (fun _ _ => (40, 20)) = .ok
      (Layout.arranged crossed (.standard : Settings ℚ)
        [(40, 20), (40, 20), (40, 20), (40, 20)] [(0, 3), (0, 2), (1, 2), (1, 3)]) := rfl
  exact ⟨Graph.layout_crossings.1 _ _ hdown, _, hlayout,
    Graph.layout_crossings.2 _ _ _ _ hlayout⟩

end Tiered
