import Tiered.Proofs.Layering.Bends
import Tiered.Proofs.Layering.LongestWays

/-!
# Layered graphs are proper

* `Joined.count_below`, `Joined.count_above`: a node is as often below another, and that one above
  it, as segments lead from one to the other;
* `exists_inner`: every virtual node is between the ends of a chain;
* `neighbours_inner`: a virtual node has one neighbour above it and one below it, the nodes before
  and behind it in its chain;
* `exists_rankOf_eq`: where the ranks are longest ways, no rank is left out on the way down, since
  the chains of a longest way go through all of them;
* `proper_ofEdges`: what is known of a layered graph altogether.
-/

namespace Tiered.Layering.Layered

/-! ## Neighbours are ends of segments -/

section Neighbours

variable {g : Layered} {v w : Nat}

theorem count_map_filter (arcs : List Arc) (key value : Arc → Nat) (v w : Nat) :
    ((arcs.filter fun s => key s = v).map value).count w =
      arcs.countP fun s => value s = w ∧ key s = v := by
  rw [List.count, List.countP_map, List.countP_filter]
  apply List.countP_congr
  intro s _
  simp

theorem Joined.count_below (hg : g.Joined) (hv : v < g.size) (w : Nat) :
    (g.below v).count w = g.arcs.count (v, w) := by
  rw [hg.below v hv, count_map_filter, List.count]
  apply List.countP_congr
  intro s _
  simp [Prod.ext_iff, and_comm]

theorem Joined.count_above (hg : g.Joined) (hw : w < g.size) (v : Nat) :
    (g.above w).count v = g.arcs.count (v, w) := by
  rw [hg.above w hw, count_map_filter, List.count]
  apply List.countP_congr
  intro s _
  simp [Prod.ext_iff]

end Neighbours

/-! ## Virtual nodes -/

section Virtual

variable {ranks : Array Nat} {edges : List (Option Arc)}

/-- Every virtual node is between the ends of a chain. -/
theorem exists_inner (ranks : Array Nat) (edges : List (Option Arc)) :
    ∀ v, ranks.size ≤ v → v < (ofEdges ranks edges).size →
      ∃ c ∈ (ofEdges ranks edges).chains, v ∈ inner c := by
  have hfold : ∀ v, ranks.size ≤ v → v < (edges.foldl addChain (ranks, [])).1.size →
      ∃ c ∈ (edges.foldl addChain (ranks, [])).2, v ∈ inner c := by
    refine List.foldlRecOn (motive := fun s : Array Nat × List (Option (List Nat)) =>
      ∀ v, ranks.size ≤ v → v < s.1.size → ∃ c ∈ s.2, v ∈ inner c) _ _ ?_ ?_
    · intro v hv hlt
      exact absurd hlt (Nat.not_lt.mpr hv)
    · rintro ⟨rank, chains⟩ ih edge - v hv hlt
      cases edge with
      | none =>
        obtain ⟨c, hc, hvc⟩ := ih v hv hlt
        exact ⟨c, List.mem_cons_of_mem _ hc, hvc⟩
      | some a =>
        rcases Nat.lt_or_ge v rank.size with hold | hnew
        · obtain ⟨c, hc, hvc⟩ := ih v hv hold
          exact ⟨c, List.mem_cons_of_mem _ hc, hvc⟩
        · simp only [addChain, size_appendList, List.length_range'] at hlt
          exact ⟨_, List.mem_cons_self, mem_inner_range.mpr ⟨hnew, hlt⟩⟩
  intro v hv hlt
  obtain ⟨c, hc, hvc⟩ := hfold v hv hlt
  exact ⟨c, List.mem_reverse.mpr hc, hvc⟩

/-- The nodes of a chain, or none. -/
def nodes (chain : Option (List Nat)) : List Nat := chain.getD []

/-- A virtual node of a chain is not one of its ends. -/
theorem mem_inner_of_mem (h : LeadDown ranks edges) {c : Option (List Nat)}
    (hc : c ∈ (ofEdges ranks edges).chains) {v : Nat} (hv : ranks.size ≤ v) (hvc : v ∈ nodes c) :
    v ∈ inner c := by
  cases c with
  | none => cases hvc
  | some chain =>
    obtain ⟨a, ha, hpath⟩ := exists_arc h hc
    obtain ⟨hupper, hlower, -⟩ := h a ha
    obtain ⟨mids, rfl, -⟩ := hpath.exists_eq
    simp only [nodes, Option.getD_some, List.mem_cons, List.mem_append, List.not_mem_nil,
      or_false] at hvc
    rcases hvc with rfl | hmid | rfl
    · omega
    · simpa [inner] using hmid
    · omega

/-- A node between the ends of a chain is above the lower one. -/
theorem inner_above_lower (h : LeadDown ranks edges) {c : Option (List Nat)}
    (hc : c ∈ (ofEdges ranks edges).chains) {v : Nat} (hv : v ∈ inner c) :
    v < (ofEdges ranks edges).size ∧
      ∃ w < ranks.size, (ofEdges ranks edges).rankOf v < ranks.getD w 0 := by
  cases c with
  | none => cases hv
  | some chain =>
    obtain ⟨a, ha, hpath⟩ := exists_arc h hc
    obtain ⟨-, hlower, -⟩ := h a ha
    obtain ⟨mids, rfl, hmids⟩ := hpath.exists_eq
    obtain ⟨hsize, -, hrank⟩ := hmids v (by simpa [inner] using hv)
    refine ⟨hsize, a.2, hlower, ?_⟩
    rw [← rankOf_real hlower]
    exact hrank

end Virtual

/-! ## Neighbours of virtual nodes -/

section Between

variable {ranks : Array Nat} {edges : List (Option Arc)}

/-- A node that is the key of one arc only has the value of that arc. -/
theorem map_filter_eq_singleton {arcs : List Arc} (key value : Arc → Nat) {s : Arc} (hs : s ∈ arcs)
    (hcount : (arcs.map key).count (key s) = 1) :
    (arcs.filter fun t => key t = key s).map value = [value s] := by
  have hlength : (arcs.filter fun t => key t = key s).length = 1 := by
    rw [← List.countP_eq_length_filter, ← hcount, List.count, List.countP_map]
    exact List.countP_congr fun t _ => by simp
  obtain ⟨t, ht⟩ := List.length_eq_one_iff.mp hlength
  have hmem : s ∈ arcs.filter fun t => key t = key s := List.mem_filter.mpr ⟨hs, by simp⟩
  rw [ht, List.mem_singleton] at hmem
  rw [ht, hmem]
  rfl

/-- What is taken of all chains has a virtual node as often as what is taken of its own chain. -/
theorem count_flatMap_inner (h : LeadDown ranks edges) {chain : List Nat}
    (hc : some chain ∈ (ofEdges ranks edges).chains) {v : Nat} (hv : v ∈ inner (some chain))
    {part : List Nat → List Nat} (hpart : ∀ c, part c ⊆ c) :
    (((ofEdges ranks edges).chains.filterMap fun c => c).flatMap part).count v =
      (part chain).count v := by
  obtain ⟨hvirtual, hapart⟩ := inner_ofEdges ranks edges
  have hother : ∀ cs : List (Option (List Nat)), (∀ c ∈ cs, c ∈ (ofEdges ranks edges).chains) →
      (∀ c ∈ cs, v ∉ inner c) → ((cs.filterMap fun c => c).flatMap part).count v = 0 := by
    intro cs hcs hnot
    apply List.count_eq_zero.mpr
    intro hmem
    obtain ⟨other, hmem, hvo⟩ := List.mem_flatMap.mp hmem
    obtain ⟨c, hmem, rfl⟩ := List.mem_filterMap.mp hmem
    exact hnot _ hmem (mem_inner_of_mem h (hcs _ hmem) (hvirtual _ hc v hv) (hpart _ hvo))
  obtain ⟨before, behind, hchains⟩ := List.append_of_mem hc
  rw [hchains] at hapart hother
  obtain ⟨-, hrest, hbefore⟩ := List.pairwise_append.mp hapart
  have hbehind := (List.pairwise_cons.mp hrest).1
  rw [hchains, List.filterMap_append, List.filterMap_cons_some (f := fun c => c) rfl,
    List.flatMap_append, List.flatMap_cons, List.count_append, List.count_append,
    hother before (fun c hc => List.mem_append_left _ hc)
      (fun c hc hvc => hbefore c hc _ List.mem_cons_self hvc hv),
    hother behind (fun c hc => List.mem_append_right _ (List.mem_cons_of_mem _ hc))
      (fun c hc hvc => hbehind c hc hv hvc)]
  omega

/-- The neighbours of a virtual node are those in its chain. -/
theorem neighbours_inner (h : LeadDown ranks edges) {chain : List Nat}
    (hc : some chain ∈ (ofEdges ranks edges).chains) {k u v w : Nat} (hu : chain[k]? = some u)
    (hv : chain[k + 1]? = some v) (hw : chain[k + 2]? = some w) :
    (ofEdges ranks edges).above v = [u] ∧ (ofEdges ranks edges).below v = [w] := by
  obtain ⟨hk, rfl⟩ := List.getElem?_eq_some_iff.mp hw
  obtain ⟨_, rfl⟩ := List.getElem?_eq_some_iff.mp hu
  obtain ⟨_, rfl⟩ := List.getElem?_eq_some_iff.mp hv
  have hg := joined_ofEdges h
  have hinner : chain[k + 1] ∈ inner (some chain) := List.mem_of_getElem? (getElem?_inner hk)
  obtain ⟨_, -, hpath⟩ := exists_arc h hc
  have hnodup := hpath.nodup
  have hsegment : ∀ i (hi : i + 1 < chain.length),
      (chain[i], chain[i + 1]) ∈ (ofEdges ranks edges).arcs := by
    intro i hi
    refine List.mem_flatMap.mpr ⟨chain, List.mem_filterMap.mpr ⟨_, hc, rfl⟩, ?_⟩
    refine List.mem_iff_getElem.mpr ⟨i, ?_, by simp [segments]⟩
    simp only [segments, List.length_zip, List.length_tail]
    omega
  have hupper := hsegment k (by omega)
  have hlower := hsegment (k + 1) (by omega)
  constructor
  · rw [hg.above _ (hg.bound _ hupper).2]
    apply map_filter_eq_singleton Prod.snd Prod.fst hupper
    rw [arcs, List.map_flatMap]
    simp only [map_snd_segments]
    rw [count_flatMap_inner h hc hinner List.tail_subset]
    apply List.count_eq_one_of_mem hnodup.tail
    exact List.mem_iff_getElem.mpr ⟨k, by rw [List.length_tail]; omega, List.getElem_tail _⟩
  · rw [hg.below _ (hg.bound _ hlower).1]
    apply map_filter_eq_singleton Prod.fst Prod.snd hlower
    rw [arcs, List.map_flatMap]
    simp only [map_fst_segments]
    rw [count_flatMap_inner h hc hinner List.dropLast_subset]
    apply List.count_eq_one_of_mem (hnodup.sublist (List.dropLast_sublist _))
    exact List.mem_iff_getElem.mpr
      ⟨k + 1, by rw [List.length_dropLast]; omega, List.getElem_dropLast _⟩

end Between

/-! ## No rank is left out -/

section Filled

variable {ranks : Array Nat} {edges : List (Option Arc)} {spans : List Span}

/-- A path has a node in each rank from its upper to its lower end. -/
theorem Path.exists_rank {rank : Array Nat} {a : Arc} {chain : List Nat} (h : Path rank a chain)
    {r : Nat} (hupper : rank.getD a.1 0 ≤ r) (hlower : r ≤ rank.getD a.2 0) :
    ∃ w < rank.size, rank.getD w 0 = r := by
  have hlast := h.rank_last
  have hk : r - rank.getD a.1 0 < chain.length := by omega
  refine ⟨chain[r - rank.getD a.1 0], h.bound _ (List.getElem_mem hk), ?_⟩
  rw [h.rank _ hk]
  omega

theorem exists_chain (h : LeadDown ranks edges) {a : Arc} (ha : some a ∈ edges) :
    ∃ chain, some chain ∈ (ofEdges ranks edges).chains ∧
      Path (ofEdges ranks edges).rank a chain := by
  obtain ⟨i, hi, hget⟩ := List.mem_iff_getElem.mp ha
  have hc : i < (ofEdges ranks edges).chains.length := by rwa [length_chains]
  have hbecomes := (List.forall₂_iff_get.mp (paths_ofEdges h)).2 i hi hc
  simp only [List.get_eq_getElem, hget] at hbecomes
  obtain ⟨chain, hchain, hpath⟩ := hbecomes
  exact ⟨chain, hchain ▸ List.getElem_mem hc, hpath⟩

/-- No node is below all real nodes. -/
theorem exists_real_le (h : LeadDown ranks edges) {v : Nat} (hv : v < (ofEdges ranks edges).size) :
    ∃ w < ranks.size, (ofEdges ranks edges).rankOf v ≤ ranks.getD w 0 := by
  rcases Nat.lt_or_ge v ranks.size with hreal | hvirtual
  · exact ⟨v, hreal, Nat.le_of_eq (rankOf_real hreal)⟩
  · obtain ⟨c, hc, hvc⟩ := exists_inner ranks edges v hvirtual hv
    obtain ⟨-, w, hw, hrank⟩ := inner_above_lower h hc hvc
    exact ⟨w, hw, Nat.le_of_lt hrank⟩

/-- Spans along edges that lead down have no cycle. -/
theorem upward_of_leadDown (h : LeadDown ranks edges) (hspans : ∀ s ∈ spans, some s.arc ∈ edges) :
    Upward (placeOf ranks.size (spans.map Span.arc)) ranks.size spans := by
  have hdown : ∀ s ∈ spans, s.upper < ranks.size ∧ s.lower < ranks.size ∧
      ranks.getD s.upper 0 < ranks.getD s.lower 0 := fun s hs => h s.arc (hspans s hs)
  refine upward_of_acyclic (fun s hs => ⟨(hdown s hs).1, (hdown s hs).2.1⟩) (fun s hs heq => ?_)
    (not_transGen_self (ranks.getD · 0) ?_)
  · have := (hdown s hs).2.2
    rw [heq] at this
    exact Nat.lt_irrefl _ this
  · rintro u v ⟨harc, -⟩
    obtain ⟨s, hs, heq⟩ := List.mem_map.mp harc
    cases heq
    exact (hdown s hs).2.2

/-- From the top down to a node that spans lead to, no rank is left out: the last span of a longest
way has no room to spare, so its chain goes on where the way to its upper end stops. -/
theorem exists_rankOf_of_le_lower (h : LeadDown ranks edges)
    (hspans : ∀ s ∈ spans, some s.arc ∈ edges) (hranks : ranks = ranking ranks.size spans)
    {s : Span} (hs : s ∈ spans) {r : Nat} (hr : r ≤ ranks.getD s.lower 0) :
    ∃ w < (ofEdges ranks edges).size, (ofEdges ranks edges).rankOf w = r := by
  have hup := upward_of_leadDown h hspans
  induction hk : ranks.getD s.lower 0 using Nat.strongRecOn generalizing s with
  | ind k ih =>
    obtain ⟨t, ht, hlower, htight⟩ := exists_tight hup ⟨s, hs, rfl⟩
    obtain ⟨hu, hl, hdown⟩ := h t.arc (hspans t ht)
    rcases Nat.lt_or_ge r (ranks.getD t.upper 0) with habove | hbeside
    · by_cases hentered : Entered spans t.upper
      · obtain ⟨s', hs', hlead⟩ := hentered
        have hnext : ranks.getD s'.lower 0 < k := by
          rw [← hk, ← hlower, hlead]
          exact hdown
        exact ih _ hnext hs' (by rw [hlead]; exact Nat.le_of_lt habove) rfl
      · -- A source at the upper end of a longest way is not pulled down.
        have hkept : t.Kept (ranking ranks.size spans) := kept_ranking hup ht
        rw [Span.Kept, getD_ranking_lower hup ht, ← htight, longestWays_eq_zero _ hentered,
          ← hranks] at hkept
        omega
    · obtain ⟨chain, -, hpath⟩ := exists_chain h (hspans t ht)
      refine hpath.exists_rank ?_ ?_
      · rw [← rankOf, rankOf_real hu]
        exact hbeside
      · rw [← rankOf, rankOf_real hl]
        change r ≤ ranks.getD t.lower 0
        rw [hlower]
        exact hr

theorem depth_le {g : Layered} {bound : Nat} (h : ∀ v < g.size, g.rankOf v < bound) :
    g.depth ≤ bound := by
  rw [depth, ← Array.foldl_toList]
  refine List.foldlRecOn (motive := fun d : Nat => d ≤ bound) _ _ (Nat.zero_le _) ?_
  intro d hd r hr
  obtain ⟨v, hv, rfl⟩ := List.mem_iff_getElem.mp hr
  have hrank := h v hv
  rw [rankOf, getD_of_lt hv] at hrank
  exact Nat.max_le.mpr ⟨hd, hrank⟩

/-- Where the ranks are longest ways, every rank has a node. -/
theorem exists_rankOf_eq (h : LeadDown ranks edges) (hspans : ∀ s ∈ spans, some s.arc ∈ edges)
    (hranks : ranks = ranking ranks.size spans) {r : Nat} (hr : r < (ofEdges ranks edges).depth) :
    ∃ w < (ofEdges ranks edges).size, (ofEdges ranks edges).rankOf w = r := by
  obtain ⟨v, hv, hrv⟩ : ∃ v < (ofEdges ranks edges).size, r ≤ (ofEdges ranks edges).rankOf v := by
    by_contra hnone
    push Not at hnone
    exact absurd hr (Nat.not_lt.mpr (depth_le hnone))
  obtain ⟨w, hw, hvw⟩ := exists_real_le h hv
  rcases ranking_eq_zero_or_le (upward_of_leadDown h hspans) hw with hzero | ⟨s, hs, hle⟩
  · rw [← hranks] at hzero
    refine ⟨w, Nat.lt_of_lt_of_le hw (real_le_size ranks edges), ?_⟩
    rw [rankOf_real hw]
    omega
  · rw [← hranks] at hle
    exact exists_rankOf_of_le_lower h hspans hranks hs (by omega)

end Filled

/-! ## What a layered graph is -/

/-- The edges have become chains of segments, and the layers hold their nodes. -/
structure Proper (ranks : Array Nat) (edges : List (Option Arc)) (g : Layered) (layers : Layers) :
    Prop where
  /-- The nodes there were keep their numbers and their ranks. -/
  real : ∀ v < ranks.size, v < g.size ∧ g.isVirtual v = false ∧ g.rankOf v = ranks.getD v 0
  /-- A loop has no chain. Any other edge has one from its upper to its lower end, with one node in
  each rank. -/
  chains : List.Forall₂ (Becomes g.rank) edges g.chains
  /-- All nodes between the ends of chains are virtual, and there are no other virtual nodes. -/
  virtual : ∀ v, (∃ c ∈ g.chains, v ∈ inner c) ↔ v < g.size ∧ g.isVirtual v = true
  /-- No other chain leads through them. -/
  alone : ∀ i j (hi : i < g.chains.length) (hj : j < g.chains.length), i ≠ j →
    ∀ v ∈ inner g.chains[i], v ∉ nodes g.chains[j]
  /-- They have one neighbour above and one below, those in their chain. -/
  neighbours : ∀ chain, some chain ∈ g.chains → ∀ k u v w, chain[k]? = some u →
    chain[k + 1]? = some v → chain[k + 2]? = some w → g.above v = [u] ∧ g.below v = [w]
  /-- Neighbours count once per segment, seen from above as from below. -/
  segments : ∀ v < g.size, ∀ w < g.size,
    (g.below v).count w = g.arcs.count (v, w) ∧ (g.above w).count v = g.arcs.count (v, w)
  /-- Each node stands once, in the layer of its rank. -/
  layers : g.Complete layers

/-- **Layered graphs are proper.** This is what edges that lead down become. If the ranks are those
of spans along the edges, no layer is empty. -/
theorem proper_ofEdges {ranks : Array Nat} {edges : List (Option Arc)} (h : LeadDown ranks edges) :
    Proper ranks edges (ofEdges ranks edges) (ofEdges ranks edges).arrange ∧
      ∀ spans : List Span, (∀ s ∈ spans, some s.arc ∈ edges) → ranks = ranking ranks.size spans →
        ∀ layer ∈ (ofEdges ranks edges).arrange, layer ≠ [] := by
  have hg := joined_ofEdges h
  have hcomplete := complete_arrange (ofEdges ranks edges)
  obtain ⟨hvirtual, hapart⟩ := inner_ofEdges ranks edges
  refine ⟨?_, fun spans hspans hranks layer hlayer hempty => ?_⟩
  · constructor
    case real =>
      exact fun v hv => ⟨Nat.lt_of_lt_of_le hv (real_le_size ranks edges), isVirtual_real hv,
        rankOf_real hv⟩
    case chains => exact paths_ofEdges h
    case virtual =>
      intro v
      rw [isVirtual, real_ofEdges, decide_eq_true_eq]
      constructor
      · rintro ⟨c, hc, hv⟩
        exact ⟨(inner_above_lower h hc hv).1, hvirtual c hc v hv⟩
      · exact fun hv => exists_inner ranks edges v hv.2 hv.1
    case alone =>
      intro i j hi hj hij v hv hmem
      have hother := mem_inner_of_mem h (List.getElem_mem hj)
        (hvirtual _ (List.getElem_mem hi) v hv) hmem
      rcases Nat.lt_or_gt_of_ne hij with hlt | hgt
      · exact List.pairwise_iff_getElem.mp hapart i j hi hj hlt hv hother
      · exact List.pairwise_iff_getElem.mp hapart j i hj hi hgt hother hv
    case neighbours => exact fun chain hchain k u v w hu hv hw => neighbours_inner h hchain hu hv hw
    case segments => exact fun v hv w hw => ⟨hg.count_below hv w, hg.count_above hw v⟩
    case layers => exact hcomplete
  · obtain ⟨r, hr, rfl⟩ := List.mem_iff_getElem.mp hlayer
    obtain ⟨w, hw, hrank⟩ := exists_rankOf_eq h hspans hranks (hcomplete.depth ▸ hr)
    have hmem := (hcomplete.mem_getElem hr).mpr ⟨hw, hrank⟩
    rw [hempty] at hmem
    cases hmem

/-- Parallel edges, a long edge beside a way of shorter ones, a loop, and a node by itself. -/
def severalEdges : List (Option Arc) := [some (0, 1), some (1, 2), some (0, 2), none, some (0, 1)]

theorem proper_ofEdges_several :
    let spans : List Span := [⟨0, 1, 1⟩, ⟨1, 2, 2⟩, ⟨0, 2, 1⟩, ⟨0, 1, 1⟩]
    LeadDown #[0, 1, 3, 0] severalEdges ∧ (∀ s ∈ spans, some s.arc ∈ severalEdges) ∧
      #[0, 1, 3, 0] = ranking 4 spans ∧
      (ofEdges #[0, 1, 3, 0] severalEdges).chains =
        [some [0, 1], some [1, 4, 2], some [0, 5, 6, 2], none, some [0, 1]] ∧
      Proper #[0, 1, 3, 0] severalEdges (ofEdges #[0, 1, 3, 0] severalEdges)
        (ofEdges #[0, 1, 3, 0] severalEdges).arrange ∧
      ∀ layer ∈ (ofEdges #[0, 1, 3, 0] severalEdges).arrange, layer ≠ [] := by
  intro spans
  have hdown : LeadDown #[0, 1, 3, 0] severalEdges := by decide
  have hspans : ∀ s ∈ spans, some s.arc ∈ severalEdges := by decide
  have hranks : #[0, 1, 3, 0] = ranking 4 spans := by decide
  obtain ⟨hproper, hfilled⟩ := proper_ofEdges hdown
  exact ⟨hdown, hspans, hranks, rfl, hproper, hfilled spans hspans hranks⟩

end Tiered.Layering.Layered
