import Tiered.Layout.Isotonic
import Tiered.Proofs.Exact

/-!
# The isotonic fit does not descend

Whatever the targets and weights are, pooling leaves pools whose values do not descend, so neither
does the fit (`isotonicFit_ascending`). No pool loses a member, so the fit is as long as the targets
are (`length_isotonicFit`).
-/

namespace Tiered.Layout

variable {K : Type} [Field K] [LinearOrder K] [FloorRing K] [PlaneFunctions K]

/-- The values of pools, the last of which comes first, do not ascend. -/
def Descending (blocks : List (Pool K)) : Prop :=
  blocks.Pairwise fun a b => b.value ≤ a.value

/-- How many targets pools hold. -/
def members (blocks : List (Pool K)) : Nat := (blocks.map Pool.count).sum

theorem absorb_descending (b : Pool K) {blocks : List (Pool K)} (h : Descending blocks) :
    Descending (absorb b blocks) := by
  induction blocks generalizing b with
  | nil => exact List.pairwise_singleton _ _
  | cons a rest ih =>
    obtain ⟨ha, hrest⟩ := List.pairwise_cons.mp h
    unfold absorb
    split
    · rename_i hab
      refine List.pairwise_cons.mpr ⟨?_, h⟩
      intro c hc
      rcases List.mem_cons.mp hc with rfl | hc
      · exact hab
      · exact le_trans (ha c hc) hab
    · exact ih _ hrest

theorem members_absorb (b : Pool K) (blocks : List (Pool K)) :
    members (absorb b blocks) = b.count + members blocks := by
  induction blocks generalizing b with
  | nil => rfl
  | cons a rest ih =>
    unfold absorb
    split
    · rfl
    · rw [ih]
      simp only [Pool.merge, members, List.map_cons, List.sum_cons]
      omega

theorem pools_descending (targets : List (K × K)) : Descending (pools targets) :=
  List.foldlRecOn (motive := Descending) _ _ List.Pairwise.nil
    fun _ h _ _ => absorb_descending _ h

theorem members_pools (targets : List (K × K)) : members (pools targets) = targets.length := by
  have hfold : ∀ (blocks : List (Pool K)),
      members (targets.foldl (fun blocks t => absorb ⟨t.1, t.2, 1⟩ blocks) blocks) =
        members blocks + targets.length := by
    induction targets with
    | nil => exact fun _ => rfl
    | cons t rest ih =>
      intro blocks
      rw [List.foldl_cons, ih, members_absorb, List.length_cons]
      dsimp only
      omega
  exact (hfold []).trans (Nat.zero_add _)

theorem isotonicFit_ascending (targets weights : List K) :
    (isotonicFit targets weights).Pairwise (· ≤ ·) := by
  refine List.pairwise_flatMap.mpr ⟨?_, ?_⟩
  · intro b _
    exact List.pairwise_replicate.mpr (.inr (le_refl _))
  · refine (List.pairwise_reverse.mpr (pools_descending _)).imp ?_
    intro a b hab x hx y hy
    rw [List.eq_of_mem_replicate hx, List.eq_of_mem_replicate hy]
    exact hab

theorem length_isotonicFit {targets weights : List K} (h : targets.length = weights.length) :
    (isotonicFit targets weights).length = targets.length := by
  have hmembers := members_pools (targets.zip weights)
  rw [List.length_zip, ← h, Nat.min_self] at hmembers
  simp only [isotonicFit, List.length_flatMap, List.length_replicate, List.map_reverse,
    List.sum_reverse]
  exact hmembers

end Tiered.Layout
