import Tiered.Proofs.Layering.Bends
import Tiered.Proofs.Layering.DepthFirst
import Tiered.Proofs.Layout.Ranks

/-!
# Forests are drawn without crossings

* `nodup_ends`: if no two arcs lead to one node, no two segments do, however long the arcs are;
* `IsForest`: a graph whose edges have no cycle and no common target, loops apart;
* `layout_forest`: the first arrangement of its layered graph has no crossings, so it is the one
  that is drawn.
-/

namespace Tiered

namespace Layering

/-- No two arcs lead to one node. -/
def EndsApart (edges : List (Option Arc)) : Prop :=
  edges.Pairwise fun d e => ∀ a b, d = some a → e = some b → a.2 ≠ b.2

namespace Layered

/-- Bends belong to one chain each, so only the arcs themselves could have an end in common. -/
theorem nodup_ends {ranks : Array Nat} {edges : List (Option Arc)} (h : LeadDown ranks edges)
    (hends : EndsApart edges) : ((ofEdges ranks edges).arcs.map Prod.snd).Nodup := by
  obtain ⟨hvirtual, hapart⟩ := inner_ofEdges ranks edges
  have hlength := length_chains ranks edges
  have htail : ∀ {a : Arc} {chain : List Nat}, Path (ofEdges ranks edges).rank a chain →
      chain.tail = inner (some chain) ++ [a.2] := by
    intro a chain hpath
    obtain ⟨mids, rfl, -⟩ := hpath.exists_eq
    simp [inner]
  rw [arcs, List.map_flatMap]
  simp only [map_snd_segments]
  refine List.nodup_flatMap.mpr ⟨fun chain hchain => ?_, ?_⟩
  · obtain ⟨c, hc, rfl⟩ := List.mem_filterMap.mp hchain
    obtain ⟨a, -, hpath⟩ := exists_arc h hc
    exact hpath.nodup.tail
  · refine List.pairwise_filterMap.mpr (List.pairwise_iff_getElem.mpr ?_)
    intro i j hi hj hij c hc d hd v hv hw
    obtain ⟨a, ha, hpatha⟩ := exists_path h (hlength ▸ hi) hi hc
    obtain ⟨b, hb, hpathb⟩ := exists_path h (hlength ▸ hj) hj hd
    have hreala := (h a (ha ▸ List.getElem_mem _)).2.1
    have hrealb := (h b (hb ▸ List.getElem_mem _)).2.1
    have hinner := List.pairwise_iff_getElem.mp hapart i j hi hj hij
    have hvirtuali := hvirtual _ (List.getElem_mem hi)
    have hvirtualj := hvirtual _ (List.getElem_mem hj)
    rw [hc] at hinner hvirtuali
    rw [hd] at hinner hvirtualj
    simp only [htail hpatha, List.mem_append, List.mem_singleton] at hv
    simp only [htail hpathb, List.mem_append, List.mem_singleton] at hw
    rcases hv with hv | rfl <;> rcases hw with hw | hw
    · exact hinner hv hw
    · have := hvirtuali v hv
      omega
    · have := hvirtualj _ hw
      omega
    · exact List.pairwise_iff_getElem.mp hends i j (hlength ▸ hi) (hlength ▸ hj) hij a b ha hb hw

theorem length_above_le_one {ranks : Array Nat} {edges : List (Option Arc)}
    (h : LeadDown ranks edges) (hends : EndsApart edges) {v : Nat}
    (hv : v < (ofEdges ranks edges).size) : ((ofEdges ranks edges).above v).length ≤ 1 := by
  have hcount := List.nodup_iff_count_le_one.mp (nodup_ends h hends) v
  rw [(joined_ofEdges h).above v hv, List.length_map, ← List.countP_eq_length_filter]
  rw [List.count, List.countP_map] at hcount
  refine Nat.le_trans (Nat.le_of_eq (List.countP_congr fun s _ => ?_)) hcount
  simp

end Layered
end Layering

namespace Graph

/-- The edges that lead to a node, loops apart. -/
def incoming (g : Graph) (id : String) : List Edge :=
  g.edges.filter fun e => e.target = id ∧ e.source ≠ e.target

/-- The edges have no cycle, and no two of them lead to one node, loops apart. -/
structure IsForest (g : Graph) : Prop where
  acyclic : g.Acyclic
  single : ∀ id ∈ g.nodes, (g.incoming id).length ≤ 1

variable {g : Graph}

theorem IsForest.pairwise (h : g.IsForest) (hknown : g.unknownNode? = none) :
    g.edges.Pairwise fun e f => e.source ≠ e.target → f.source ≠ f.target →
      e.target ≠ f.target := by
  refine List.pairwise_iff_forall_sublist.mpr fun {e f} hsub he hf heq => ?_
  have hnode := (unknownNode?_eq_none.mp hknown f (hsub.subset (by simp))).2
  have hboth : [e, f].Sublist (g.incoming f.target) := by
    have hfilter := hsub.filter fun d => decide (d.target = f.target ∧ d.source ≠ d.target)
    have he : e.source ≠ f.target := heq ▸ he
    rwa [List.filter_eq_self.mpr (by simp [he, hf, heq])] at hfilter
  have := Nat.le_trans hboth.length_le (h.single _ hnode)
  simp at this

end Graph

namespace Layout

open Layering (Arc Layered LeadDown EndsApart)

variable {g : Graph} {arcs : List Arc}

/-- In a forest the arcs are left as they are, and no two of them lead to one node. -/
theorem endsApart_downArcs (hforest : g.IsForest) (hknown : g.unknownNode? = none)
    (harcs : List.Forall₂ (fun e arc => arcOf g e = .ok arc) g.edges arcs) :
    EndsApart (downArcs g arcs) := by
  have hkept := Layering.feedback_of_acyclic (fun a ha => arcs_lt harcs ha)
    (acyclic_arcs harcs hforest.acyclic)
  have hlength := harcs.length_eq
  refine List.pairwise_iff_getElem.mpr fun i j hi hj hij a b ha hb heq => ?_
  have hdown : ∀ k (hk : k < (downArcs g arcs).length) (he : k < g.edges.length) (c : Arc),
      (downArcs g arcs)[k] = some c → g.edges[k].source ≠ g.edges[k].target ∧
        g.nodes[c.2]? = some g.edges[k].target := by
    intro k hk he c hc
    have hka : k < arcs.length := hlength ▸ he
    have hkt : k < (turned g arcs).length := by rwa [turned, length_feedback]
    have hfalse : (turned g arcs)[k] = false := hkept _ (List.getElem_mem hkt)
    obtain ⟨hsource, htarget, hloop⟩ := arcOf_eq_ok (getElem_arcs harcs he hka)
    rw [getElem_downArcs hk hka hkt, hfalse] at hc
    split at hc
    · cases hc
    · rename_i hne
      cases hc
      exact ⟨fun h => hne (hloop h), htarget⟩
  rw [length_downArcs, ← hlength] at hi hj
  obtain ⟨hloopi, htargeti⟩ := hdown i _ hi a ha
  obtain ⟨hloopj, htargetj⟩ := hdown j _ hj b hb
  rw [heq, htargetj] at htargeti
  exact List.pairwise_iff_getElem.mp (hforest.pairwise hknown) i j hi hj hij hloopi hloopj
    (Option.some.inj htargeti).symm

end Layout

/-- **Forests are drawn without crossings.** Where each node of a layered graph has at most one
segment above it, the first arrangement, which holds every node once, has no crossings, and the
search ends with it; so a layout of a forest has none, however long its edges are and in whatever
order they are declared. -/
theorem Graph.layout_forest :
    (∀ (ranks : Array Nat) (edges : List (Option Layering.Arc)), Layering.LeadDown ranks edges →
      (∀ v < (Layering.Layered.ofEdges ranks edges).size,
        ((Layering.Layered.ofEdges ranks edges).above v).length ≤ 1) →
      (Layering.Layered.ofEdges ranks edges).Complete
          (Layering.Layered.ofEdges ranks edges).arrange ∧
        (Layering.Layered.ofEdges ranks edges).crossings
          (Layering.Layered.ofEdges ranks edges).arrange = 0 ∧
        (Layering.Layered.ofEdges ranks edges).minimize
          (Layering.Layered.ofEdges ranks edges).arrange =
            ((Layering.Layered.ofEdges ranks edges).arrange, 0)) ∧
    ∀ {K : Type} [Scalar K] (g : Graph) (settings : Settings K) (sizer : Sizer K) (l : Layout K),
      g.IsForest → g.layout settings sizer = .ok l → l.crossings = 0 := by
  have hfirst : ∀ (ranks : Array Nat) (edges : List (Option Layering.Arc)),
      Layering.LeadDown ranks edges → (∀ v < (Layering.Layered.ofEdges ranks edges).size,
        ((Layering.Layered.ofEdges ranks edges).above v).length ≤ 1) →
      (Layering.Layered.ofEdges ranks edges).crossings
        (Layering.Layered.ofEdges ranks edges).arrange = 0 :=
    fun ranks edges h hsingle =>
      Layering.Layered.crossings_arrange (Layering.Layered.joined_ofEdges h) hsingle
  refine ⟨fun ranks edges h hsingle => ⟨Layering.Layered.complete_arrange _,
    hfirst ranks edges h hsingle,
    Layering.Layered.minimize_of_crossings_eq_zero (hfirst ranks edges h hsingle)⟩, ?_⟩
  intro K _ g settings sizer l hforest h
  obtain ⟨hknown, ⟨-, rfl⟩ | ⟨sizes, arcs, -, harcs, rfl⟩⟩ := Graph.layout_eq_ok h
  · rfl
  · have hdown := Layout.leadDown_downArcs harcs
    have hends := Layout.endsApart_downArcs hforest hknown harcs
    have hzero := hfirst _ _ hdown fun v hv => Layering.Layered.length_above_le_one hdown hends hv
    exact congrArg Prod.snd (Layering.Layered.minimize_of_crossings_eq_zero hzero)

/-- Two trees, one with a long edge that is declared before a short one, and a loop. -/
def grove : Graph :=
  { directed := true
    nodes := ["c", "e", "b", "a", "d"]
    edges := [⟨"a", "c", .ofList [("minlen", "3")]⟩, ⟨"d", "e", ∅⟩, ⟨"a", "b", ∅⟩, ⟨"b", "b", ∅⟩] }

theorem isForest_grove : grove.IsForest := by
  have hdown : ∀ e ∈ grove.edges, e.source ≠ e.target →
      ["a", "b", "c", "d", "e"].idxOf e.source < ["a", "b", "c", "d", "e"].idxOf e.target := by
    decide
  refine ⟨Layering.not_transGen_self (["a", "b", "c", "d", "e"].idxOf ·) ?_, by decide⟩
  rintro u w ⟨hne, e, he, rfl, rfl⟩
  exact hdown e he hne

theorem Graph.layout_forest_grove :
    Layering.LeadDown #[0, 0, 1, 2, 3] [some (0, 4), some (1, 2), some (1, 3)] ∧
      (Layering.Layered.ofEdges #[0, 0, 1, 2, 3] [some (0, 4), some (1, 2), some (1, 3)]).Complete
        (Layering.Layered.ofEdges #[0, 0, 1, 2, 3]
          [some (0, 4), some (1, 2), some (1, 3)]).arrange ∧
      (Layering.Layered.ofEdges #[0, 0, 1, 2, 3] [some (0, 4), some (1, 2), some (1, 3)]).crossings
        (Layering.Layered.ofEdges #[0, 0, 1, 2, 3]
          [some (0, 4), some (1, 2), some (1, 3)]).arrange = 0 ∧
      grove.IsForest ∧
      ∃ l : Layout ℚ, grove.layout .standard (fun _ _ => (40, 20)) = .ok l ∧ l.crossings = 0 := by
  have hdown : Layering.LeadDown #[0, 0, 1, 2, 3] [some (0, 4), some (1, 2), some (1, 3)] := by
    intro a ha
    simp only [List.mem_cons, Option.some.injEq, List.not_mem_nil, or_false] at ha
    rcases ha with rfl | rfl | rfl <;> decide
  have hsingle : ∀ v < (Layering.Layered.ofEdges #[0, 0, 1, 2, 3]
      [some (0, 4), some (1, 2), some (1, 3)]).size, ((Layering.Layered.ofEdges #[0, 0, 1, 2, 3]
        [some (0, 4), some (1, 2), some (1, 3)]).above v).length ≤ 1 := by decide
  have hlayout : grove.layout .standard (fun _ _ => (40, 20)) = .ok
      (Layout.arranged grove (.standard : Settings ℚ)
        [(40, 20), (40, 20), (40, 20), (40, 20), (40, 20)]
        [(3, 0), (4, 1), (3, 2), (2, 2)]) := rfl
  obtain ⟨hcomplete, hzero, -⟩ := Graph.layout_forest.1 _ _ hdown hsingle
  exact ⟨hdown, hcomplete, hzero, isForest_grove, _, hlayout,
    Graph.layout_forest.2 _ _ _ _ isForest_grove hlayout⟩

end Tiered
