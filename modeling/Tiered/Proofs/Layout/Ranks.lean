import Tiered.Proofs.Exact
import Tiered.Proofs.Graph
import Tiered.Proofs.Layering.Chains
import Tiered.Proofs.Layout.Stages
import Tiered.Proofs.Table

/-!
# Edges lead down the ranks

In a layout every edge that is no loop spans as many ranks as it asks for: downwards, or upwards if
it was turned around. Only cycles make edges be turned around (`layout_descends`).
-/

namespace Tiered

namespace Layout

open Layering (Arc Span feedback placeOf)

/-! ## Arcs -/

theorem spanOf_bounds (minlen : Option String) : 1 ≤ spanOf minlen ∧ spanOf minlen ≤ 100 := by
  simp only [spanOf, maxSpan]
  omega

/-- The ends of an arc stand for the ends of its edge. -/
theorem arcOf_eq_ok {g : Graph} {e : Edge} {arc : Arc} (h : arcOf g e = .ok arc) :
    g.nodes[arc.1]? = some e.source ∧ g.nodes[arc.2]? = some e.target ∧
      (e.source = e.target → arc.1 = arc.2) := by
  have hfound : ∀ {id : String} {i : Nat}, g.nodes.zipIdx.reverse.lookup id = some i →
      g.nodes[i]? = some id :=
    fun hi => List.mem_zipIdx_iff_getElem?.mp (List.mem_reverse.mp (Table.mem_of_lookup hi))
  unfold arcOf at h
  dsimp only at h
  cases hs : g.nodes.zipIdx.reverse.lookup e.source with
  | none =>
    rw [hs] at h
    cases h
  | some u =>
    cases ht : g.nodes.zipIdx.reverse.lookup e.target with
    | none =>
      rw [hs, ht] at h
      cases h
    | some v =>
      rw [hs, ht] at h
      cases h
      refine ⟨hfound hs, hfound ht, ?_⟩
      intro heq
      rw [heq, ht] at hs
      exact (Option.some.inj hs).symm

section Arcs

variable {g : Graph} {arcs : List Arc}
  (h : List.Forall₂ (fun e arc => arcOf g e = .ok arc) g.edges arcs)

include h

theorem getElem_arcs {i : Nat} (he : i < g.edges.length) (ha : i < arcs.length) :
    arcOf g g.edges[i] = .ok arcs[i] :=
  (List.forall₂_iff_get.mp h).2 i he ha

theorem exists_edge {a : Arc} (ha : a ∈ arcs) : ∃ e ∈ g.edges, arcOf g e = .ok a := by
  obtain ⟨i, hi, rfl⟩ := List.mem_iff_getElem.mp ha
  have he : i < g.edges.length := h.length_eq ▸ hi
  exact ⟨_, List.getElem_mem he, getElem_arcs h he hi⟩

theorem arcs_lt {a : Arc} (ha : a ∈ arcs) : a.1 < g.nodes.length ∧ a.2 < g.nodes.length := by
  obtain ⟨e, -, he⟩ := exists_edge h ha
  obtain ⟨hsource, htarget, -⟩ := arcOf_eq_ok he
  exact ⟨(List.getElem?_eq_some_iff.mp hsource).1, (List.getElem?_eq_some_iff.mp htarget).1⟩

/-- Arcs have no more cycles than the edges they stand for. -/
theorem acyclic_arcs (hg : g.Acyclic) : Layering.Acyclic arcs := by
  intro v hcycle
  refine hg (g.nodes.getD v "") (hcycle.lift (fun v => g.nodes.getD v "") ?_)
  rintro u w ⟨harc, hne⟩
  obtain ⟨e, he, hok⟩ := exists_edge h harc
  obtain ⟨hsource, htarget, hloop⟩ := arcOf_eq_ok hok
  have hu : g.nodes.getD u "" = e.source := by
    rw [List.getD_eq_getElem?_getD, hsource, Option.getD_some]
  have hw : g.nodes.getD w "" = e.target := by
    rw [List.getD_eq_getElem?_getD, htarget, Option.getD_some]
  change g.Leads (g.nodes.getD u "") (g.nodes.getD w "")
  rw [hu, hw]
  exact ⟨fun heq => hne (hloop heq), e, he, rfl, rfl⟩

end Arcs

/-! ## Arcs that lead down -/

/-- The arc after turning. -/
def downArc (n : Nat) (arcs : List Arc) (a : Arc) : Option Arc :=
  if a.1 = a.2 then none
  else if placeOf n arcs a.2 < placeOf n arcs a.1 then some a.swap
  else some a

theorem oriented_feedback (n : Nat) (arcs : List Arc) :
    oriented arcs (feedback n arcs) = arcs.map (downArc n arcs) := by
  rw [oriented, Layering.feedback_eq, List.zipWith_map_right, List.zipWith_self]
  refine List.map_congr_left fun a _ => ?_
  simp only [downArc]
  split
  · rfl
  · rename_i hne
    simp only [ne_eq, hne, not_false_eq_true, decide_true, Bool.true_and, decide_eq_true_eq]

/-- Each arc that is left leads from a smaller place of the sequence to a larger one. -/
theorem mem_oriented_feedback {n : Nat} {arcs : List Arc} (hb : ∀ a ∈ arcs, a.1 < n ∧ a.2 < n)
    {d : Arc} (hd : some d ∈ oriented arcs (feedback n arcs)) :
    placeOf n arcs d.1 < placeOf n arcs d.2 ∧ d.1 < n ∧ d.2 < n := by
  rw [oriented_feedback] at hd
  obtain ⟨a, ha, hdown⟩ := List.mem_map.mp hd
  obtain ⟨hu, hv⟩ := hb a ha
  unfold downArc at hdown
  split at hdown
  · cases hdown
  · rename_i hne
    split at hdown
    · rename_i hback
      cases hdown
      exact ⟨hback, hv, hu⟩
    · rename_i hnotback
      cases hdown
      have hplace := Layering.placeOf_ne arcs hu hv hne
      exact ⟨by omega, hu, hv⟩

theorem downArcs_eq (g : Graph) (arcs : List Arc) :
    downArcs g arcs = arcs.map (downArc g.nodes.length arcs) :=
  oriented_feedback _ _

theorem mem_downArcs {g : Graph} {arcs : List Arc}
    (hb : ∀ a ∈ arcs, a.1 < g.nodes.length ∧ a.2 < g.nodes.length) {d : Arc}
    (hd : some d ∈ downArcs g arcs) :
    placeOf g.nodes.length arcs d.1 < placeOf g.nodes.length arcs d.2 ∧
      d.1 < g.nodes.length ∧ d.2 < g.nodes.length :=
  mem_oriented_feedback hb hd

theorem mem_spans {down : List (Option Arc)} {lengths : List Nat} {s : Span} :
    s ∈ spans down lengths ↔ (some (s.upper, s.lower), s.span) ∈ down.zip lengths := by
  unfold spans
  rw [List.mem_filterMap]
  constructor
  · rintro ⟨⟨arc, span⟩, hmem, hs⟩
    obtain ⟨a, rfl, rfl⟩ := Option.map_eq_some_iff.mp hs
    exact hmem
  · intro hmem
    exact ⟨_, hmem, rfl⟩

theorem upward_spans {g : Graph} {arcs : List Arc}
    (hb : ∀ a ∈ arcs, a.1 < g.nodes.length ∧ a.2 < g.nodes.length) (lengths : List Nat) :
    Layering.Upward (placeOf g.nodes.length arcs) g.nodes.length
      (spans (downArcs g arcs) lengths) := by
  have hdown : ∀ s ∈ spans (downArcs g arcs) lengths,
      some (s.upper, s.lower) ∈ downArcs g arcs :=
    fun s hs => (List.of_mem_zip (mem_spans.mp hs)).1
  exact {
    lt := fun s hs => (mem_downArcs hb (hdown s hs)).1
    upper := fun s hs => (mem_downArcs hb (hdown s hs)).2.1
    lower := fun s hs => (mem_downArcs hb (hdown s hs)).2.2
    bound := fun s hs => Layering.placeOf_lt (mem_downArcs hb (hdown s hs)).2.2 }

theorem turned_loop {g : Graph} {arcs : List Arc} {i : Nat} (ht : i < (turned g arcs).length)
    (ha : i < arcs.length) (hloop : arcs[i].1 = arcs[i].2) : (turned g arcs)[i] = false := by
  simp only [turned, Layering.feedback_eq, List.getElem_map, hloop, ne_eq, not_true_eq_false,
    decide_false, Bool.false_and]

/-- The ranks of the ends of an edge are as far apart as it asks for. -/
theorem nodeRanks_apart {g : Graph} {arcs : List Arc}
    (hb : ∀ a ∈ arcs, a.1 < g.nodes.length ∧ a.2 < g.nodes.length) {i : Nat}
    (he : i < g.edges.length) (ha : i < arcs.length) (ht : i < (turned g arcs).length)
    (hne : arcs[i].1 ≠ arcs[i].2) :
    if (turned g arcs)[i] = true then
      (nodeRanks g arcs).getD arcs[i].2 0 + spanOf (g.edges[i].attr? "minlen") ≤
        (nodeRanks g arcs).getD arcs[i].1 0
    else
      (nodeRanks g arcs).getD arcs[i].1 0 + spanOf (g.edges[i].attr? "minlen") ≤
        (nodeRanks g arcs).getD arcs[i].2 0 := by
  have hturned : (turned g arcs)[i] = true ↔
      placeOf g.nodes.length arcs arcs[i].2 < placeOf g.nodes.length arcs arcs[i].1 := by
    simp only [turned, Layering.feedback_eq, List.getElem_map]
    simp [hne]
  have hspan : ∀ {d : Arc}, downArc g.nodes.length arcs arcs[i] = some d →
      (nodeRanks g arcs).getD d.1 0 + spanOf (g.edges[i].attr? "minlen") ≤
        (nodeRanks g arcs).getD d.2 0 := by
    intro d hd
    have hmem : (some d, spanOf (g.edges[i].attr? "minlen")) ∈
        (downArcs g arcs).zip (g.edges.map fun e => spanOf (e.attr? "minlen")) := by
      refine List.mem_iff_getElem.mpr ⟨i, by simp [length_downArcs, ha, he], ?_⟩
      simp [downArcs_eq, hd]
    exact Layering.kept_ranking (upward_spans hb _)
      (s := ⟨d.1, d.2, spanOf (g.edges[i].attr? "minlen")⟩) (mem_spans.mpr hmem)
  split
  · rename_i hflip
    exact hspan (d := arcs[i].swap) (by rw [downArc, if_neg hne, if_pos (hturned.mp hflip)])
  · rename_i hkeep
    exact hspan (d := arcs[i]) (by rw [downArc, if_neg hne, if_neg fun h => hkeep (hturned.mpr h)])

/-- What an edge becomes: nothing if it is a loop, else its arc, perhaps turned around. -/
theorem getElem_downArcs {g : Graph} {arcs : List Arc} {i : Nat}
    (hi : i < (downArcs g arcs).length) (ha : i < arcs.length) (ht : i < (turned g arcs).length) :
    (downArcs g arcs)[i] = if arcs[i].1 = arcs[i].2 then none
      else if (turned g arcs)[i] then some arcs[i].swap else some arcs[i] := by
  simp only [downArcs, oriented, List.getElem_zipWith]

theorem leadDown_downArcs {g : Graph} {arcs : List Arc}
    (harcs : List.Forall₂ (fun e arc => arcOf g e = .ok arc) g.edges arcs) :
    Layering.LeadDown (nodeRanks g arcs) (downArcs g arcs) := by
  intro d hd
  have hb : ∀ a ∈ arcs, a.1 < g.nodes.length ∧ a.2 < g.nodes.length :=
    fun a ha => arcs_lt harcs ha
  obtain ⟨-, hupper, hlower⟩ := mem_downArcs hb hd
  rw [size_nodeRanks]
  refine ⟨hupper, hlower, ?_⟩
  obtain ⟨i, hi, hget⟩ := List.mem_iff_getElem.mp hd
  have ha : i < arcs.length := length_downArcs g arcs ▸ hi
  have ht : i < (turned g arcs).length := by rwa [turned, length_feedback]
  have he : i < g.edges.length := harcs.length_eq ▸ ha
  obtain ⟨hspan, -⟩ := spanOf_bounds (g.edges[i].attr? "minlen")
  rw [getElem_downArcs hi ha ht] at hget
  split at hget
  · cases hget
  · rename_i hne
    have hapart := nodeRanks_apart hb he ha ht hne
    split at hget
    · rename_i hflip
      cases hget
      rw [if_pos hflip] at hapart
      change (nodeRanks g arcs).getD arcs[i].2 0 < (nodeRanks g arcs).getD arcs[i].1 0
      omega
    · rename_i hkeep
      cases hget
      rw [if_neg hkeep] at hapart
      omega

/-! ## The layout -/

theorem find?_id {K : Type} {nodes : List (PlacedNode K)} (hd : (nodes.map (·.id)).Nodup)
    {a : PlacedNode K} (ha : a ∈ nodes) : nodes.find? (·.id == a.id) = some a := by
  induction nodes with
  | nil => cases ha
  | cons b rest ih =>
    rw [List.map_cons, List.nodup_cons] at hd
    rcases List.mem_cons.mp ha with rfl | ha
    · exact List.find?_cons_of_pos (beq_self_eq_true _)
    · rw [List.find?_cons_of_neg, ih hd.2 ha]
      intro heq
      exact hd.1 (List.mem_map.mpr ⟨a, ha, (eq_of_beq heq).symm⟩)

section Arranged

variable {K : Type} [Scalar K] {g : Graph} {settings : Settings K} {sizes : List (K × K)}
  {arcs : List Arc} (hsizes : sizes.length = g.nodes.length)

include hsizes

/-- A layout finds its nodes by their ids. -/
theorem node?_of_mem (hd : g.nodes.Nodup) {a : PlacedNode K}
    (ha : a ∈ (arranged g settings sizes arcs).nodes) :
    (arranged g settings sizes arcs).node? a.id = some a :=
  find?_id (ids_arranged settings arcs hsizes ▸ hd) ha

/-- The topmost rank is not empty. -/
theorem exists_topmost (settings : Settings K) (arcs : List Arc)
    (hne : (arranged g settings sizes arcs).nodes ≠ []) :
    ∃ a ∈ (arranged g settings sizes arcs).nodes, a.rank = 0 := by
  have hpos : 0 < g.nodes.length := by
    rw [← length_arranged_nodes settings arcs hsizes]
    exact List.length_pos_iff.mpr hne
  obtain ⟨v, hv, hzero⟩ := Layering.exists_ranking_eq_zero
    (spans (downArcs g arcs) (g.edges.map fun e => spanOf (e.attr? "minlen"))) hpos
  obtain ⟨a, ha, -, hrank⟩ := exists_node settings arcs hsizes (List.getElem?_eq_getElem hv)
  exact ⟨a, ha, hrank.trans hzero⟩

variable (harcs : List.Forall₂ (fun e arc => arcOf g e = .ok arc) g.edges arcs)
  {e : RoutedEdge K} (he : e ∈ (arranged g settings sizes arcs).edges)

include harcs he

/-- An edge that is no loop leads from a node with the id of its source to one with the id of its
target, as far down as it asks for. -/
theorem exists_span_arranged (hne : e.source ≠ e.target) :
    ∃ a ∈ (arranged g settings sizes arcs).nodes, ∃ b ∈ (arranged g settings sizes arcs).nodes,
      a.id = e.source ∧ b.id = e.target ∧
      if e.reversed then b.rank + spanOf (e.attrs.get? "minlen") ≤ a.rank
      else a.rank + spanOf (e.attrs.get? "minlen") ≤ b.rank := by
  obtain ⟨i, hi, ha, ht, hedge, hreversed⟩ := exists_of_mem_edges harcs.length_eq.symm he
  obtain ⟨hsource, htarget, -⟩ := arcOf_eq_ok (getElem_arcs harcs hi ha)
  have hends : arcs[i].1 ≠ arcs[i].2 := by
    intro heq
    rw [heq, htarget, ← hedge] at hsource
    exact hne (Option.some.inj hsource).symm
  have hranks := nodeRanks_apart (fun a ha => arcs_lt harcs ha) hi ha ht hends
  rw [← hedge] at hsource htarget hranks
  obtain ⟨a, hmema, hida, hranka⟩ := exists_node settings arcs hsizes hsource
  obtain ⟨b, hmemb, hidb, hrankb⟩ := exists_node settings arcs hsizes htarget
  refine ⟨a, hmema, b, hmemb, hida, hidb, ?_⟩
  rw [hreversed, hranka, hrankb]
  exact hranks

theorem span_arranged (hd : g.nodes.Nodup) (hne : e.source ≠ e.target) :
    ∃ a b, (arranged g settings sizes arcs).node? e.source = some a ∧
      (arranged g settings sizes arcs).node? e.target = some b ∧
      if e.reversed then b.rank + spanOf (e.attrs.get? "minlen") ≤ a.rank
      else a.rank + spanOf (e.attrs.get? "minlen") ≤ b.rank := by
  obtain ⟨a, ha, b, hb, hida, hidb, hspan⟩ := exists_span_arranged hsizes harcs he hne
  exact ⟨a, b, hida ▸ node?_of_mem hsizes hd ha, hidb ▸ node?_of_mem hsizes hd hb, hspan⟩

omit hsizes in
theorem reversed_loop (heq : e.source = e.target) : e.reversed = false := by
  obtain ⟨i, hi, ha, ht, hedge, hreversed⟩ := exists_of_mem_edges harcs.length_eq.symm he
  obtain ⟨-, -, hloop⟩ := arcOf_eq_ok (getElem_arcs harcs hi ha)
  rw [← hedge] at hloop
  rw [hreversed]
  exact turned_loop ht ha (hloop heq)

omit hsizes in
theorem reversed_acyclic (hacyclic : g.Acyclic) : e.reversed = false := by
  obtain ⟨i, _, _, ht, _, hreversed⟩ := exists_of_mem_edges harcs.length_eq.symm he
  rw [hreversed]
  exact Layering.feedback_of_acyclic (fun a ha => arcs_lt harcs ha) (acyclic_arcs harcs hacyclic)
    _ (List.getElem_mem ht)

end Arranged

/-- Every edge leads down as far as it asks for, or up if it was turned around. -/
structure Descends {K : Type} (g : Graph) (l : Layout K) : Prop where
  edges : l.edges.map (·.edge) = g.edges
  span : ∀ e ∈ l.edges, e.source ≠ e.target →
    ∃ a b k, l.node? e.source = some a ∧ l.node? e.target = some b ∧
      k = spanOf (e.attrs.get? "minlen") ∧ 1 ≤ k ∧ k ≤ 100 ∧
      if e.reversed then b.rank + k ≤ a.rank else a.rank + k ≤ b.rank
  loop : ∀ e ∈ l.edges, e.source = e.target → e.reversed = false
  acyclic : g.Acyclic → ∀ e ∈ l.edges, e.reversed = false
  top : l.nodes ≠ [] → ∃ a ∈ l.nodes, a.rank = 0

end Layout

/-- **Edges lead down the ranks.** Whatever cycles a graph has, its ranks keep all that its edges
ask for once some edges are turned around, and without a cycle none is. -/
theorem Graph.layout_descends {K : Type} [Scalar K] {g : Graph} {settings : Settings K}
    {sizer : Sizer K} {l : Layout K} (hd : g.nodes.Nodup) (h : g.layout settings sizer = .ok l) :
    l.Descends g := by
  have hedges := (Graph.layout_complete h).2
  obtain ⟨-, ⟨-, rfl⟩ | ⟨sizes, arcs, hsizes, harcs, rfl⟩⟩ := Graph.layout_eq_ok h
  · exact {
      edges := hedges
      span := fun e he => nomatch he
      loop := fun e he => nomatch he
      acyclic := fun _ e he => nomatch he
      top := fun hne => absurd rfl hne }
  · have hsizes : sizes.length = g.nodes.length := hsizes.length_eq.symm
    constructor
    · exact hedges
    · intro e he hne
      obtain ⟨a, b, ha, hb, hspan⟩ := Layout.span_arranged hsizes harcs he hd hne
      obtain ⟨hleast, hmost⟩ := Layout.spanOf_bounds (e.attrs.get? "minlen")
      exact ⟨a, b, _, ha, hb, rfl, hleast, hmost, hspan⟩
    · exact fun e he heq => Layout.reversed_loop harcs he heq
    · exact fun hacyclic e he => Layout.reversed_acyclic harcs he hacyclic
    · exact Layout.exists_topmost hsizes settings arcs

/-- A long edge, one that leads back, and a loop. -/
def backAndForth : Graph :=
  { directed := true
    nodes := ["a", "b"]
    edges := [⟨"a", "b", .ofList [("minlen", "3")]⟩, ⟨"b", "a", ∅⟩, ⟨"b", "b", ∅⟩] }

theorem Graph.layout_descends_backAndForth :
    backAndForth.nodes.Nodup ∧
      ∃ l : Layout ℚ, backAndForth.layout .standard (fun _ _ => (40, 20)) = .ok l ∧
        l.Descends backAndForth := by
  have hd : backAndForth.nodes.Nodup := by decide
  have hlayout : backAndForth.layout .standard (fun _ _ => (40, 20)) = .ok
      (Layout.arranged backAndForth (.standard : Settings ℚ) [(40, 20), (40, 20)]
        [(0, 1), (1, 0), (1, 1)]) := rfl
  exact ⟨hd, _, hlayout, Graph.layout_descends hd hlayout⟩

end Tiered
