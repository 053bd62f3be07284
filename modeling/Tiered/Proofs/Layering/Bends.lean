import Tiered.Proofs.Layering.Chains

/-!
# Edges share no bends

The nodes between the ends of a chain are virtual, and each is in one chain only.

* `Fresh.addChain`: a chain takes nodes that no chain before it has, so this holds however many
  edges there are (`fresh_foldl`);
* `inner_ofEdges`: so it holds in every layered graph.
-/

namespace Tiered.Layering.Layered

/-- The nodes of a chain between its ends. -/
def inner : Option (List Nat) → List Nat
  | none => []
  | some chain => chain.tail.dropLast

theorem mem_of_mem_inner {chain : List Nat} {v : Nat} (h : v ∈ inner (some chain)) : v ∈ chain :=
  List.mem_of_mem_tail (List.mem_of_mem_dropLast h)

theorem getElem?_inner {chain : List Nat} {k : Nat} (hk : k + 2 < chain.length) :
    (inner (some chain))[k]? = some chain[k + 1] := by
  have hk' : k < chain.tail.dropLast.length := by
    rw [List.length_dropLast, List.length_tail]
    omega
  change chain.tail.dropLast[k]? = some chain[k + 1]
  rw [List.getElem?_eq_getElem hk', List.getElem_dropLast, List.getElem_tail]

theorem length_inner (chain : List Nat) : (inner (some chain)).length = chain.length - 2 := by
  change chain.tail.dropLast.length = chain.length - 2
  rw [List.length_dropLast, List.length_tail]
  omega

/-- A path leads down with every step. -/
theorem Path.ascending {rank : Array Nat} {a : Arc} {chain : List Nat} (h : Path rank a chain) :
    chain.Pairwise fun v w => rank.getD v 0 < rank.getD w 0 := by
  apply List.pairwise_iff_getElem.mpr
  intro j k hj hk hjk
  rw [h.rank j hj, h.rank k hk]
  omega

theorem Path.nodup {rank : Array Nat} {a : Arc} {chain : List Nat} (h : Path rank a chain) :
    chain.Nodup :=
  h.ascending.imp fun {v w} hlt heq => by
    rw [heq] at hlt
    exact Nat.lt_irrefl _ hlt

/-- A path has one node in each rank from its upper to its lower end. -/
theorem Path.rank_last {rank : Array Nat} {a : Arc} {chain : List Nat} (h : Path rank a chain) :
    rank.getD a.2 0 + 1 = rank.getD a.1 0 + chain.length := by
  have htwo := h.two
  have hlast := h.last
  rw [List.getLast?_eq_getElem?, List.getElem?_eq_getElem (by omega)] at hlast
  have hrank := h.rank (chain.length - 1) (by omega)
  rw [Option.some.inj hlast] at hrank
  omega

/-- Between the ends of a new chain there are the numbers that it takes. -/
theorem mem_inner_range {upper lower first count v : Nat} :
    v ∈ inner (some (upper :: List.range' first count ++ [lower])) ↔
      first ≤ v ∧ v < first + count := by
  simp [inner]

/-- Chains whose inner nodes are virtual ones that exist, each in one chain only. -/
structure Fresh (real : Nat) (state : Array Nat × List (Option (List Nat))) : Prop where
  size : real ≤ state.1.size
  bound : ∀ c ∈ state.2, ∀ v ∈ inner c, real ≤ v ∧ v < state.1.size
  apart : state.2.Pairwise fun c d => (inner c).Disjoint (inner d)

/-- A new chain takes the numbers behind all that are taken. -/
theorem Fresh.addChain {real : Nat} {state : Array Nat × List (Option (List Nat))}
    (h : Fresh real state) (edge : Option Arc) : Fresh real (Layered.addChain state edge) := by
  obtain ⟨ranks, chains⟩ := state
  have hsize : real ≤ ranks.size := h.size
  cases edge with
  | none =>
    refine ⟨hsize, ?_, List.pairwise_cons.mpr ⟨fun c _ => List.disjoint_nil_left _, h.apart⟩⟩
    intro c hc v hv
    rcases List.mem_cons.mp hc with rfl | hc
    · cases hv
    · exact h.bound c hc v hv
  | some a =>
    obtain ⟨upper, lower⟩ := a
    simp only [Layered.addChain]
    generalize ranks.getD upper 0 + 1 = first
    generalize ranks.getD lower 0 - first = count
    have hgrown : (ranks ++ List.range' first count).size = ranks.size + count := by
      rw [size_appendList, List.length_range']
    refine ⟨?_, ?_, List.pairwise_cons.mpr ⟨?_, h.apart⟩⟩
    · dsimp only
      omega
    · intro c hc v hv
      dsimp only
      rw [hgrown]
      rcases List.mem_cons.mp hc with rfl | hc
      · have := mem_inner_range.mp hv
        omega
      · have := h.bound c hc v hv
        dsimp only at this
        omega
    · intro c hc v hv hvc
      have := mem_inner_range.mp hv
      have := h.bound c hc v hvc
      dsimp only at this
      omega

theorem fresh_foldl {real : Nat} {state : Array Nat × List (Option (List Nat))}
    (h : Fresh real state) (edges : List (Option Arc)) :
    Fresh real (edges.foldl Layered.addChain state) := by
  induction edges generalizing state with
  | nil => exact h
  | cons edge rest ih => exact ih (h.addChain edge)

/-- **Edges share no bends.** Between the ends of each chain there are virtual nodes only, and none
of them is in another chain. -/
theorem inner_ofEdges (ranks : Array Nat) (edges : List (Option Arc)) :
    (∀ c ∈ (ofEdges ranks edges).chains, ∀ v ∈ inner c, ranks.size ≤ v) ∧
    (ofEdges ranks edges).chains.Pairwise fun c d => (inner c).Disjoint (inner d) := by
  have hstart : Fresh ranks.size (ranks, []) := ⟨Nat.le_refl _, by simp, .nil⟩
  have hfresh := fresh_foldl hstart edges
  constructor
  · intro c hc v hv
    exact (hfresh.bound c (List.mem_reverse.mp hc) v hv).1
  · exact List.pairwise_reverse.mpr (hfresh.apart.imp fun h => h.symm)

end Tiered.Layering.Layered
