import Tiered.Layering.Ranking
import Tiered.Proofs.Writes

/-!
# Ranks keep all spans

The spans have no cycle if the nodes can be put in places such that each span leads from a smaller
place to a larger one. Then a round of relaxing settles at least one more place, so that `n` rounds
settle `n` nodes (`kept_longestWays`). Pulling sources down (`kept_pulled`) and counting from the
least rank on (`kept_ranking`) keep what is settled, and the least rank is zero
(`exists_ranking_eq_zero`).
-/

namespace Tiered.Layering

/-- The lower node is far enough below the upper one. -/
def Span.Kept (ranks : Array Nat) (s : Span) : Prop :=
  ranks.getD s.upper 0 + s.span ≤ ranks.getD s.lower 0

/-! ## Relaxing -/

section Relaxing

variable {ranks : Array Nat} {s : Span}

theorem size_relax (ranks : Array Nat) (s : Span) : (relax ranks s).size = ranks.size :=
  Array.size_modify

theorem size_foldl_relax (ss : List Span) (ranks : Array Nat) :
    (ss.foldl relax ranks).size = ranks.size :=
  List.foldlRecOn (motive := fun rs : Array Nat => rs.size = ranks.size) _ _ rfl
    fun rs h s _ => (size_relax rs s).trans h

theorem le_relax (ranks : Array Nat) (s : Span) (v : Nat) :
    ranks.getD v 0 ≤ (relax ranks s).getD v 0 := by
  rw [relax, getD_modify]
  split
  · exact Nat.le_max_left _ _
  · exact Nat.le_refl _

theorem le_foldl_relax (ss : List Span) (ranks : Array Nat) (v : Nat) :
    ranks.getD v 0 ≤ (ss.foldl relax ranks).getD v 0 :=
  List.foldlRecOn (motive := fun rs : Array Nat => ranks.getD v 0 ≤ rs.getD v 0) _ _
    (Nat.le_refl _) fun _ h s _ => Nat.le_trans h (le_relax _ s v)

theorem le_relax_lower (hs : s.lower < ranks.size) :
    ranks.getD s.upper 0 + s.span ≤ (relax ranks s).getD s.lower 0 := by
  rw [relax, getD_modify, if_pos ⟨rfl, hs⟩]
  exact Nat.le_max_right _ _

end Relaxing

/-! ## Settling -/

/-- Where each span leads from a smaller place to a larger one, the spans have no cycle. -/
structure Upward (place : Nat → Nat) (n : Nat) (spans : List Span) : Prop where
  lt : ∀ s ∈ spans, place s.upper < place s.lower
  upper : ∀ s ∈ spans, s.upper < n
  lower : ∀ s ∈ spans, s.lower < n
  bound : ∀ s ∈ spans, place s.lower < n

/-- The spans to the first `k` places are kept. -/
def SettledBelow (place : Nat → Nat) (spans : List Span) (k : Nat) (ranks : Array Nat) : Prop :=
  ∀ s ∈ spans, place s.lower < k → s.Kept ranks

section Settling

variable {place : Nat → Nat} {n k : Nat} {spans : List Span} {ranks : Array Nat}

/-- What is settled does not move. -/
theorem SettledBelow.getD_relax (h : SettledBelow place spans k ranks) {s : Span}
    (hs : s ∈ spans) {v : Nat} (hv : place v < k) :
    (relax ranks s).getD v 0 = ranks.getD v 0 := by
  rw [relax, getD_modify]
  split
  · rename_i hlower
    obtain ⟨rfl, -⟩ := hlower
    exact Nat.max_eq_left (h s hs hv)
  · rfl

theorem SettledBelow.relax (hup : Upward place n spans) (h : SettledBelow place spans k ranks)
    {s : Span} (hs : s ∈ spans) : SettledBelow place spans k (relax ranks s) := by
  intro t ht htk
  have hkept := h t ht htk
  have hupper := hup.lt t ht
  rw [Span.Kept, h.getD_relax hs htk, h.getD_relax hs (by omega)]
  exact hkept

theorem SettledBelow.getD_foldl_relax (hup : Upward place n spans)
    (h : SettledBelow place spans k ranks) {ss : List Span} (hss : ss ⊆ spans) {v : Nat}
    (hv : place v < k) : (ss.foldl Layering.relax ranks).getD v 0 = ranks.getD v 0 := by
  induction ss generalizing ranks with
  | nil => rfl
  | cons s rest ih =>
    obtain ⟨hs, hrest⟩ := List.cons_subset.mp hss
    rw [List.foldl_cons, ih (h.relax hup hs) hrest, h.getD_relax hs hv]

/-- The spans to the next place are kept once they are relaxed: their upper ends do not move any
more, and their lower ends move down only. -/
theorem SettledBelow.kept_foldl_relax (hup : Upward place n spans)
    (h : SettledBelow place spans k ranks) (hsize : ranks.size = n) {ss : List Span}
    (hss : ss ⊆ spans) {s : Span} (hs : s ∈ ss) (hk : place s.lower ≤ k) :
    s.Kept (ss.foldl Layering.relax ranks) := by
  induction ss generalizing ranks with
  | nil => cases hs
  | cons t rest ih =>
    obtain ⟨ht, hrest⟩ := List.cons_subset.mp hss
    rw [List.foldl_cons]
    rcases List.mem_cons.mp hs with rfl | hs
    · have hplace := hup.lt s ht
      have hupper : (rest.foldl Layering.relax (Layering.relax ranks s)).getD s.upper 0 =
          ranks.getD s.upper 0 := by
        rw [(h.relax hup ht).getD_foldl_relax hup hrest (by omega),
          h.getD_relax ht (by omega)]
      calc (rest.foldl Layering.relax (Layering.relax ranks s)).getD s.upper 0 + s.span
          = ranks.getD s.upper 0 + s.span := by rw [hupper]
        _ ≤ (Layering.relax ranks s).getD s.lower 0 :=
          le_relax_lower (hsize ▸ hup.lower s ht)
        _ ≤ (rest.foldl Layering.relax (Layering.relax ranks s)).getD s.lower 0 :=
          le_foldl_relax rest _ _
    · exact ih (h.relax hup ht) ((size_relax ranks t).trans hsize) hrest hs

/-- A round settles one more place. -/
theorem SettledBelow.round (hup : Upward place n spans) (h : SettledBelow place spans k ranks)
    (hsize : ranks.size = n) :
    SettledBelow place spans (k + 1) (spans.foldl Layering.relax ranks) :=
  fun _ hs hk => h.kept_foldl_relax hup hsize (List.Subset.refl _) hs (Nat.lt_succ_iff.mp hk)

/-- Where a round moves nothing, all is settled. -/
theorem settledBelow_of_fixed (hup : Upward place n spans) (hsize : ranks.size = n)
    (hfixed : spans.foldl relax ranks = ranks) (k : Nat) : SettledBelow place spans k ranks := by
  induction k with
  | zero => exact fun _ _ hk => absurd hk (Nat.not_lt_zero _)
  | succ k ih =>
    have hnext := ih.round hup hsize
    rwa [hfixed] at hnext

theorem SettledBelow.settleRanks (hup : Upward place n spans)
    (h : SettledBelow place spans k ranks) (hsize : ranks.size = n) (rounds : Nat) :
    SettledBelow place spans (k + rounds) (settleRanks spans rounds ranks) := by
  induction rounds generalizing k ranks with
  | zero => exact h
  | succ rounds ih =>
    unfold Layering.settleRanks
    dsimp only
    split
    · rename_i hfixed
      exact settledBelow_of_fixed hup hsize hfixed _
    · have hnext := ih (h.round hup hsize) ((size_foldl_relax spans ranks).trans hsize)
      rwa [Nat.add_right_comm] at hnext

theorem size_settleRanks (spans : List Span) (rounds : Nat) (ranks : Array Nat) :
    (settleRanks spans rounds ranks).size = ranks.size := by
  induction rounds generalizing ranks with
  | zero => rfl
  | succ rounds ih =>
    unfold Layering.settleRanks
    dsimp only
    split
    · rfl
    · exact (ih _).trans (size_foldl_relax spans ranks)

theorem size_longestWays (n : Nat) (spans : List Span) : (longestWays n spans).size = n :=
  (size_settleRanks spans n _).trans Array.size_replicate

theorem kept_longestWays (hup : Upward place n spans) {s : Span} (hs : s ∈ spans) :
    s.Kept (longestWays n spans) := by
  have hstart : SettledBelow place spans 0 (Array.replicate n 0) :=
    fun _ _ hk => absurd hk (Nat.not_lt_zero _)
  have hsettled := hstart.settleRanks hup Array.size_replicate n
  exact hsettled s hs (by rw [Nat.zero_add]; exact hup.bound s hs)

end Settling

/-! ## Pulling sources down -/

section Pulling

variable {place : Nat → Nat} {n : Nat} {spans : List Span} {ways : Array Nat}

theorem pulledRank_lower {s : Span} (hs : s ∈ spans) :
    pulledRank ways spans s.lower = ways.getD s.lower 0 := by
  rw [pulledRank, if_pos]
  exact List.any_eq_true.mpr ⟨s, hs, beq_self_eq_true _⟩

/-- A source is pulled down no further than the spans that leave it allow. -/
theorem kept_pulled {s : Span} (hs : s ∈ spans) (hkept : s.Kept ways) :
    pulledRank ways spans s.upper + s.span ≤ pulledRank ways spans s.lower := by
  unfold Span.Kept at hkept
  rw [pulledRank_lower hs]
  by_cases hsource : spans.any (·.lower == s.upper) = true
  · rw [pulledRank, if_pos hsource]
    exact hkept
  · rw [pulledRank, if_neg hsource]
    have hroom : ways.getD s.lower 0 - s.span ∈
        (spans.filter (·.upper == s.upper)).map fun t => ways.getD t.lower 0 - t.span :=
      List.mem_map.mpr ⟨s, List.mem_filter.mpr ⟨hs, beq_self_eq_true _⟩, rfl⟩
    obtain ⟨least, hleast⟩ := Option.isSome_iff_exists.mp (List.isSome_min?_of_mem hroom)
    have hle := (List.min?_eq_some_iff.mp hleast).2 _ hroom
    dsimp only
    rw [hleast, Option.getD_some]
    omega

end Pulling

/-! ## Counting from the least rank on -/

section Ranks

variable {place : Nat → Nat} {n : Nat} {spans : List Span}

theorem size_ranking (n : Nat) (spans : List Span) : (ranking n spans).size = n := by
  simp [ranking]

/-- The rank that becomes zero. -/
def leastRank (n : Nat) (spans : List Span) : Nat :=
  ((List.range n).map (pulledRank (longestWays n spans) spans)).min?.getD 0

theorem getD_ranking {v : Nat} (hv : v < n) :
    (ranking n spans).getD v 0 =
      pulledRank (longestWays n spans) spans v - leastRank n spans := by
  rw [getD_of_lt (by rwa [size_ranking])]
  simp [ranking, leastRank]

/-- The least rank is that of a node, and no node is above it. -/
theorem leastRank_spec (spans : List Span) {v : Nat} (hv : v < n) :
    leastRank n spans ≤ pulledRank (longestWays n spans) spans v ∧
      ∃ w < n, pulledRank (longestWays n spans) spans w = leastRank n spans := by
  have hmem : pulledRank (longestWays n spans) spans v ∈
      (List.range n).map (pulledRank (longestWays n spans) spans) :=
    List.mem_map_of_mem (List.mem_range.mpr hv)
  obtain ⟨least, hleast⟩ := Option.isSome_iff_exists.mp (List.isSome_min?_of_mem hmem)
  obtain ⟨hattained, hle⟩ := List.min?_eq_some_iff.mp hleast
  rw [leastRank, hleast, Option.getD_some]
  obtain ⟨w, hw, hwleast⟩ := List.mem_map.mp hattained
  exact ⟨hle _ hmem, w, List.mem_range.mp hw, hwleast⟩

/-- All spans are kept by the ranks. -/
theorem kept_ranking (hup : Upward place n spans) {s : Span} (hs : s ∈ spans) :
    s.Kept (ranking n spans) := by
  have hpulled := kept_pulled hs (kept_longestWays hup hs)
  have hleast := (leastRank_spec spans (hup.upper s hs)).1
  rw [Span.Kept, getD_ranking (hup.upper s hs), getD_ranking (hup.lower s hs)]
  omega

theorem exists_ranking_eq_zero (spans : List Span) (hn : 0 < n) :
    ∃ v < n, (ranking n spans).getD v 0 = 0 := by
  obtain ⟨-, w, hw, hleast⟩ := leastRank_spec spans hn
  refine ⟨w, hw, ?_⟩
  rw [getD_ranking hw, hleast, Nat.sub_self]

end Ranks

end Tiered.Layering
