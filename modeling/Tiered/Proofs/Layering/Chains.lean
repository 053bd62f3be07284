import Tiered.Proofs.Layering.Feedback
import Tiered.Proofs.Layering.Layers

/-!
# Chains join neighbouring ranks

Arcs that lead down become chains with one node in each rank from their upper to their lower end.

* `Path`: such a chain; `paths_ofEdges`: every chain of a layered graph is one;
* `arcs`: the segments of all chains;
* `Joined`: segments join neighbouring ranks, and the neighbours of a node are the other ends of its
  segments (`joined_ofEdges`).
-/

namespace Tiered.Layering

/-- Arcs that lead from nodes of smaller ranks to nodes of larger ones. -/
def LeadDown (ranks : Array Nat) (edges : List (Option Arc)) : Prop :=
  ∀ a : Arc, some a ∈ edges →
    a.1 < ranks.size ∧ a.2 < ranks.size ∧ ranks.getD a.1 0 < ranks.getD a.2 0

instance (ranks : Array Nat) (edges : List (Option Arc)) : Decidable (LeadDown ranks edges) :=
  decidable_of_iff (∀ e ∈ edges, ∀ a ∈ e,
      a.1 < ranks.size ∧ a.2 < ranks.size ∧ ranks.getD a.1 0 < ranks.getD a.2 0)
    ⟨fun h a ha => h _ ha a rfl, fun h _ he a ha => h a (ha ▸ he)⟩

/-! ## Arrays that grow -/

theorem size_appendList (a : Array Nat) (more : List Nat) :
    (a ++ more).size = a.size + more.length := by
  rw [← Array.length_toList, Array.toList_appendList, List.length_append, Array.length_toList]

theorem appendList_append (a : Array Nat) (more further : List Nat) :
    a ++ more ++ further = a ++ (more ++ further) :=
  Array.toList_inj.mp (by simp only [Array.toList_appendList, List.append_assoc])

theorem getD_appendList_left {a : Array Nat} {v : Nat} (hv : v < a.size) (more : List Nat) :
    (a ++ more).getD v 0 = a.getD v 0 := by
  simp only [Array.getD_eq_getD_getElem?, ← Array.getElem?_toList, Array.toList_appendList]
  rw [List.getElem?_append_left (by rwa [Array.length_toList])]

theorem getD_appendList_right (a : Array Nat) (more : List Nat) (k : Nat) :
    (a ++ more).getD (a.size + k) 0 = more.getD k 0 := by
  simp only [Array.getD_eq_getD_getElem?, ← Array.getElem?_toList, Array.toList_appendList]
  rw [List.getElem?_append_right (by rw [Array.length_toList]; exact Nat.le_add_right _ _),
    Array.length_toList, Nat.add_sub_cancel_left, List.getD_eq_getElem?_getD]

namespace Layered

/-! ## Paths -/

/-- The nodes from the upper to the lower end of an arc, one in each rank. -/
structure Path (rank : Array Nat) (a : Arc) (chain : List Nat) : Prop where
  two : 2 ≤ chain.length
  head : chain.head? = some a.1
  last : chain.getLast? = some a.2
  bound : ∀ v ∈ chain, v < rank.size
  rank : ∀ k (hk : k < chain.length), rank.getD chain[k] 0 = rank.getD a.1 0 + k

/-- What becomes of an edge: nothing of a loop, and a path of an arc. -/
def Becomes (rank : Array Nat) : Option Arc → Option (List Nat) → Prop
  | none, chain => chain = none
  | some a, chain => ∃ path, chain = some path ∧ Path rank a path

theorem Path.append {rank : Array Nat} {a : Arc} {chain : List Nat} (h : Path rank a chain)
    (more : List Nat) : Path (rank ++ more) a chain := by
  have hhead : a.1 ∈ chain := List.mem_of_mem_head? h.head
  exact { h with
    bound := fun v hv => by
      have := h.bound v hv
      rw [size_appendList]
      omega
    rank := fun k hk => by
      rw [getD_appendList_left (h.bound _ (List.getElem_mem hk)),
        getD_appendList_left (h.bound _ hhead), h.rank k hk] }

theorem Becomes.append {rank : Array Nat} {edge : Option Arc} {chain : Option (List Nat)}
    (h : Becomes rank edge chain) (more : List Nat) : Becomes (rank ++ more) edge chain := by
  cases edge with
  | none => exact h
  | some a =>
    obtain ⟨path, rfl, hpath⟩ := h
    exact ⟨path, rfl, hpath.append more⟩

/-- The nodes between the ends have ranks between theirs. -/
theorem Path.exists_eq {rank : Array Nat} {a : Arc} {chain : List Nat} (h : Path rank a chain) :
    ∃ mids, chain = a.1 :: (mids ++ [a.2]) ∧ ∀ m ∈ mids, m < rank.size ∧
      rank.getD a.1 0 < rank.getD m 0 ∧ rank.getD m 0 < rank.getD a.2 0 := by
  obtain ⟨rest, rfl⟩ := List.head?_eq_some_iff.mp h.head
  obtain ⟨mids, rfl⟩ : ∃ mids, rest = mids ++ [a.2] := by
    have htwo := h.two
    have hrest : rest ≠ [] := by
      rintro rfl
      simp at htwo
    have hlast := h.last
    rw [List.getLast?_cons_of_ne_nil hrest] at hlast
    exact List.getLast?_eq_some_iff.mp hlast
  have hend : rank.getD a.2 0 = rank.getD a.1 0 + (mids.length + 1) := by
    have hlast := h.rank (mids.length + 1) (by simp)
    simpa using hlast
  refine ⟨mids, rfl, fun m hm => ⟨h.bound m (by simp [hm]), ?_⟩⟩
  obtain ⟨k, hk, rfl⟩ := List.mem_iff_getElem.mp hm
  have hmid := h.rank (k + 1) (by simp; omega)
  simp only [List.getElem_cons_succ, List.getElem_append_left hk] at hmid
  omega

/-- The chain of a new edge is a path over new nodes. -/
theorem path_addChain {rank : Array Nat} {a : Arc} (hu : a.1 < rank.size) (hl : a.2 < rank.size)
    (hdown : rank.getD a.1 0 < rank.getD a.2 0) :
    Path (rank ++ List.range' (rank.getD a.1 0 + 1) (rank.getD a.2 0 - (rank.getD a.1 0 + 1))) a
      (a.1 :: List.range' rank.size (rank.getD a.2 0 - (rank.getD a.1 0 + 1)) ++ [a.2]) := by
  obtain ⟨count, hcount⟩ : ∃ count, rank.getD a.2 0 = rank.getD a.1 0 + 1 + count :=
    Nat.exists_eq_add_of_le hdown
  rw [hcount, Nat.add_sub_cancel_left]
  have hlength : (a.1 :: List.range' rank.size count ++ [a.2]).length = count + 2 := by
    simp
  refine ⟨by omega, rfl, List.getLast?_concat, ?_, ?_⟩
  · intro v hv
    rw [size_appendList, List.length_range']
    simp only [List.cons_append, List.mem_cons, List.mem_append, List.mem_range'_1,
      List.not_mem_nil, or_false] at hv
    omega
  · intro k hk
    rw [getD_appendList_left hu]
    rw [hlength] at hk
    rcases Nat.eq_zero_or_pos k with rfl | hpos
    · exact getD_appendList_left hu _
    obtain ⟨i, rfl⟩ := Nat.exists_eq_add_of_le' hpos
    rcases Nat.lt_or_ge i count with hi | hi
    · have hnode : (a.1 :: List.range' rank.size count ++ [a.2])[i + 1] = rank.size + i := by
        simp [List.getElem_append_left, hi]
      rw [hnode, getD_appendList_right, List.getD_eq_getElem _ _ (by simpa), List.getElem_range']
      omega
    · have hend : i = count := by omega
      subst hend
      have hnode : (a.1 :: List.range' rank.size i ++ [a.2])[i + 1] = a.2 := by
        simp
      rw [hnode, getD_appendList_left hl, hcount]
      omega

theorem becomes_addChain {ranks : Array Nat} {edges : List (Option Arc)} (h : LeadDown ranks edges)
    {rank : Array Nat} (hsize : ranks.size ≤ rank.size)
    (hrank : ∀ v < ranks.size, rank.getD v 0 = ranks.getD v 0) {edge : Option Arc}
    (hedge : edge ∈ edges) (chains : List (Option (List Nat))) :
    ∃ chain, ∃ more : List Nat, addChain (rank, chains) edge = (rank ++ more, chain :: chains) ∧
      Becomes (rank ++ more) edge chain := by
  cases edge with
  | none => exact ⟨none, [], by simp [addChain], rfl⟩
  | some a =>
    obtain ⟨hu, hl, hdown⟩ := h a hedge
    have hrise : rank.getD a.1 0 < rank.getD a.2 0 := by rwa [hrank _ hu, hrank _ hl]
    have hpath := path_addChain (Nat.lt_of_lt_of_le hu hsize) (Nat.lt_of_lt_of_le hl hsize) hrise
    exact ⟨_, _, rfl, _, rfl, hpath⟩

/-- Each edge becomes nothing or a path, in the order of the edges. -/
theorem paths_ofEdges {ranks : Array Nat} {edges : List (Option Arc)} (h : LeadDown ranks edges) :
    List.Forall₂ (Becomes (ofEdges ranks edges).rank) edges (ofEdges ranks edges).chains := by
  have hfold : ∀ (rest : List (Option Arc)) (rank : Array Nat) (chains : List (Option (List Nat))),
      (∀ edge ∈ rest, edge ∈ edges) → ranks.size ≤ rank.size →
      (∀ v < ranks.size, rank.getD v 0 = ranks.getD v 0) →
      ∃ new, ∃ more : List Nat,
        rest.foldl addChain (rank, chains) = (rank ++ more, new.reverse ++ chains) ∧
        List.Forall₂ (Becomes (rank ++ more)) rest new := by
    intro rest
    induction rest with
    | nil => exact fun rank chains _ _ _ => ⟨[], [], by simp, .nil⟩
    | cons edge rest ih =>
      intro rank chains hmem hsize hrank
      obtain ⟨chain, more, hadd, hchain⟩ :=
        becomes_addChain h hsize hrank (hmem edge List.mem_cons_self) chains
      obtain ⟨new, further, hnew, hpaths⟩ := ih (rank ++ more) (chain :: chains)
        (fun e he => hmem e (List.mem_cons_of_mem _ he))
        (by rw [size_appendList]; omega)
        (fun v hv => by rw [getD_appendList_left (by omega), hrank v hv])
      refine ⟨chain :: new, more ++ further, ?_, ?_⟩
      · rw [List.foldl_cons, hadd, hnew, List.reverse_cons, List.append_assoc,
          List.singleton_append, appendList_append]
      · rw [← appendList_append]
        exact .cons (hchain.append further) hpaths
  obtain ⟨new, more, hfold, hpaths⟩ := hfold edges ranks [] (fun _ he => he) (Nat.le_refl _)
    fun _ _ => rfl
  have hrank : (ofEdges ranks edges).rank = ranks ++ more := congrArg Prod.fst hfold
  have hchains : (ofEdges ranks edges).chains = new := by
    have hreversed : (edges.foldl addChain (ranks, [])).2 = new.reverse ++ [] :=
      congrArg Prod.snd hfold
    change (edges.foldl addChain (ranks, [])).2.reverse = new
    rw [hreversed, List.append_nil, List.reverse_reverse]
  rw [hrank, hchains]
  exact hpaths

/-! ## Segments -/

/-- The segments of all chains. -/
def arcs (g : Layered) : List Arc := (g.chains.filterMap fun c => c).flatMap segments

theorem map_fst_segments (chain : List Nat) : (segments chain).map Prod.fst = chain.dropLast := by
  refine List.ext_getElem (by simp [segments]) fun k _ _ => ?_
  simp [segments]

theorem map_snd_segments (chain : List Nat) : (segments chain).map Prod.snd = chain.tail :=
  List.map_snd_zip (by simp)

theorem mem_segments {chain : List Nat} {s : Arc} (h : s ∈ segments chain) :
    ∃ k, ∃ hk : k + 1 < chain.length, s = (chain[k], chain[k + 1]) := by
  obtain ⟨k, hk, rfl⟩ := List.mem_iff_getElem.mp h
  have hlength : k + 1 < chain.length := by
    simp only [segments, List.length_zip, List.length_tail] at hk
    omega
  exact ⟨k, hlength, by simp [segments]⟩

/-- Every node has the other ends of its segments above and below it, and every segment leads to
the next rank. -/
structure Joined (g : Layered) : Prop where
  below : ∀ v < g.size, g.below v = (g.arcs.filter (·.1 = v)).map Prod.snd
  above : ∀ v < g.size, g.above v = (g.arcs.filter (·.2 = v)).map Prod.fst
  bound : ∀ s ∈ g.arcs, s.1 < g.size ∧ s.2 < g.size
  rank : ∀ s ∈ g.arcs, g.rankOf s.2 = g.rankOf s.1 + 1

/-- Every node has its neighbours. -/
structure Sized (g : Layered) : Prop where
  up : g.up.size = g.size
  down : g.down.size = g.size

theorem sized_ofEdges (ranks : Array Nat) (edges : List (Option Arc)) :
    (ofEdges ranks edges).Sized :=
  ⟨size_successors _ _, size_successors _ _⟩

theorem Joined.mem_below_iff {g : Layered} (hg : g.Joined) {v w : Nat} (hv : v < g.size) :
    w ∈ g.below v ↔ (v, w) ∈ g.arcs := by
  rw [hg.below v hv]
  simp only [List.mem_map, List.mem_filter, decide_eq_true_eq]
  constructor
  · rintro ⟨s, ⟨hs, rfl⟩, rfl⟩
    exact hs
  · exact fun hs => ⟨(v, w), ⟨hs, rfl⟩, rfl⟩

theorem Joined.mem_above_iff {g : Layered} (hg : g.Joined) {v w : Nat} (hw : w < g.size) :
    v ∈ g.above w ↔ (v, w) ∈ g.arcs := by
  rw [hg.above w hw]
  simp only [List.mem_map, List.mem_filter, decide_eq_true_eq]
  constructor
  · rintro ⟨s, ⟨hs, rfl⟩, rfl⟩
    exact hs
  · exact fun hs => ⟨(v, w), ⟨hs, rfl⟩, rfl⟩

/-- A chain is the path of its arc. -/
theorem exists_path {ranks : Array Nat} {edges : List (Option Arc)} (h : LeadDown ranks edges)
    {i : Nat} (hi : i < edges.length) (hc : i < (ofEdges ranks edges).chains.length)
    {chain : List Nat} (hchain : (ofEdges ranks edges).chains[i] = some chain) :
    ∃ a, edges[i] = some a ∧ Path (ofEdges ranks edges).rank a chain := by
  have hbecomes := (List.forall₂_iff_get.mp (paths_ofEdges h)).2 i hi hc
  simp only [List.get_eq_getElem, hchain] at hbecomes
  cases hedge : edges[i] with
  | none =>
    rw [hedge] at hbecomes
    cases hbecomes
  | some a =>
    rw [hedge] at hbecomes
    obtain ⟨path, hpath, hp⟩ := hbecomes
    cases hpath
    exact ⟨a, rfl, hp⟩

theorem exists_arc {ranks : Array Nat} {edges : List (Option Arc)} (h : LeadDown ranks edges)
    {chain : List Nat} (hc : some chain ∈ (ofEdges ranks edges).chains) :
    ∃ a, some a ∈ edges ∧ Path (ofEdges ranks edges).rank a chain := by
  obtain ⟨i, hi, hget⟩ := List.mem_iff_getElem.mp hc
  obtain ⟨a, ha, hpath⟩ := exists_path h (by rwa [← length_chains ranks edges]) hi hget
  exact ⟨a, ha ▸ List.getElem_mem _, hpath⟩

theorem joined_ofEdges {ranks : Array Nat} {edges : List (Option Arc)} (h : LeadDown ranks edges) :
    (ofEdges ranks edges).Joined := by
  have hsegment : ∀ s ∈ (ofEdges ranks edges).arcs, ∃ a chain,
      Path (ofEdges ranks edges).rank a chain ∧ s ∈ segments chain := by
    intro s hs
    obtain ⟨chain, hchain, hs⟩ := List.mem_flatMap.mp hs
    obtain ⟨c, hc, rfl⟩ := List.mem_filterMap.mp hchain
    obtain ⟨a, -, hpath⟩ := exists_arc h hc
    exact ⟨a, chain, hpath, hs⟩
  constructor
  · exact fun v hv => getD_successors _ hv
  · exact fun v hv => getD_predecessors _ _ hv
  · intro s hs
    obtain ⟨a, chain, hpath, hs⟩ := hsegment s hs
    obtain ⟨k, hk, rfl⟩ := mem_segments hs
    exact ⟨hpath.bound _ (List.getElem_mem _), hpath.bound _ (List.getElem_mem _)⟩
  · intro s hs
    obtain ⟨a, chain, hpath, hs⟩ := hsegment s hs
    obtain ⟨k, hk, rfl⟩ := mem_segments hs
    change (ofEdges ranks edges).rank.getD chain[k + 1] 0 =
      (ofEdges ranks edges).rank.getD chain[k] 0 + 1
    rw [hpath.rank, hpath.rank, Nat.add_assoc]

end Layered
end Tiered.Layering
