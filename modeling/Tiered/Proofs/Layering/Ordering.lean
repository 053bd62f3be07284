import Tiered.Layering.Ordering
import Tiered.Proofs.Layering.Layers

/-!
# The search for few crossings only permutes

* `reorder_perm`: sorting the nodes that have a median around those that have none;
* `sweep_permuted`: a sweep in either direction;
* `transpose_permuted`: exchanges of neighbours;
* `minimize_permuted`: the arrangement found has the nodes of the first one, layer by layer, so a
  complete arrangement stays complete.
-/

namespace Tiered.Layering

/-! ## Sweeps -/

/-- As many nodes as there are slots to fill stand beside those that keep their slots. -/
theorem refill_perm (slots : List (Nat × Option Rat)) (sorted : List Nat)
    (h : (slots.filter fun s => s.2.isSome).length = sorted.length) :
    (refill slots sorted).Perm
      ((slots.filter fun s => !s.2.isSome).map Prod.fst ++ sorted) := by
  induction slots generalizing sorted with
  | nil =>
    have hnil : sorted = [] := List.eq_nil_of_length_eq_zero h.symm
    rw [hnil]
    exact List.Perm.refl _
  | cons slot rest ih =>
    obtain ⟨v, m⟩ := slot
    cases m with
    | none => exact (ih sorted h).cons v
    | some m =>
      cases sorted with
      | nil => exact absurd h (by simp)
      | cons w sorted =>
        have hrest : (rest.filter fun s => s.2.isSome).length = sorted.length := by
          simpa using h
        exact ((ih sorted hrest).cons w).trans List.perm_middle.symm

/-- Sorting by medians keeps the nodes that have one. -/
theorem map_fst_sorted_perm (slots : List (Nat × Option Rat))
    (le : Nat × Rat → Nat × Rat → Bool) :
    (((slots.filterMap fun (v, m) => m.map (v, ·)).mergeSort le).map (·.1)).Perm
      ((slots.filter fun s => s.2.isSome).map Prod.fst) := by
  refine ((List.mergeSort_perm _ le).map _).trans (List.Perm.of_eq ?_)
  induction slots with
  | nil => rfl
  | cons s rest ih =>
    obtain ⟨v, m⟩ := s
    cases m with
    | none => simpa using ih
    | some m => simpa using ih

theorem reorder_perm {layer : List Nat} {medians : List (Option Rat)}
    (h : medians.length = layer.length) : (reorder layer medians).Perm layer := by
  have hlayer : (layer.zip medians).map Prod.fst = layer :=
    List.map_fst_zip (Nat.le_of_eq h.symm)
  have hsorted := map_fst_sorted_perm (layer.zip medians) fun a b => a.2 ≤ b.2
  refine (refill_perm _ _ ?_).trans ((hsorted.append_left _).trans ?_)
  · rw [hsorted.length_eq, List.length_map]
  · rw [← List.map_append]
    conv_rhs => rw [← hlayer]
    exact (List.perm_append_comm.trans (List.filter_append_perm _ _)).map _

namespace Layered

variable (g : Layered)

theorem sweepFrom_permuted (neighbours : Nat → List Nat) (places : Array Nat) (layers : Layers) :
    Permuted (sweepFrom neighbours places layers) layers := by
  induction layers generalizing places with
  | nil => exact .nil
  | cons layer rest ih => exact .cons (reorder_perm (List.length_map _)) (ih _)

theorem sweep_permuted (downward : Bool) (layers : Layers) :
    Permuted (g.sweep downward layers) layers := by
  cases downward with
  | true =>
    cases layers with
    | nil => exact .nil
    | cons first rest => exact .cons (List.Perm.refl _) (sweepFrom_permuted _ _ rest)
  | false =>
    have hup : Permuted (g.sweep false layers).reverse layers.reverse := by
      unfold sweep
      simp only [Bool.false_eq_true, if_false, List.reverse_reverse]
      cases layers.reverse with
      | nil => exact .nil
      | cons first rest => exact .cons (List.Perm.refl _) (sweepFrom_permuted _ _ rest)
    have hdown := hup.reverse
    rwa [List.reverse_reverse, List.reverse_reverse] at hdown

/-! ## Exchanges -/

theorem exchange_perm (places : Array Nat) (layer : List Nat) :
    (g.exchange places layer).Perm layer := by
  fun_induction exchange g places layer with
  | case1 v w rest _ ih => exact (ih.cons w).trans (List.Perm.swap v w rest)
  | case2 v w rest _ ih => exact ih.cons v
  | case3 layer => exact List.Perm.refl _

theorem exchangeFrom_permuted (places : Array Nat) (layers : Layers) :
    Permuted (g.exchangeFrom places layers) layers := by
  induction layers generalizing places with
  | nil => exact .nil
  | cons layer rest ih => exact .cons (g.exchange_perm places layer) (ih _)

theorem transpose_permuted (layers : Layers) : Permuted (g.transpose layers) layers := by
  fun_induction transpose g layers with
  | case1 layers next _ ih => exact ih.trans (g.exchangeFrom_permuted _ _)
  | case2 layers next _ => exact g.exchangeFrom_permuted _ _

/-! ## The search -/

/-- What a search holds are permutations of the arrangement it started from. -/
structure Search.Permutes (first : Layers) (s : Search) : Prop where
  layers : Permuted s.layers first
  best : Permuted s.best first

theorem Search.Permutes.step {first : Layers} {s : Search} (h : s.Permutes first) :
    (s.step g).Permutes first := by
  have hnext : Permuted (g.transpose (g.sweep s.downward s.layers)) first :=
    ((g.transpose_permuted _).trans (g.sweep_permuted _ _)).trans h.layers
  unfold Search.step
  dsimp only
  split
  · exact ⟨hnext, hnext⟩
  · exact ⟨hnext, h.best⟩

theorem Search.Permutes.run {first : Layers} {s : Search} (h : s.Permutes first) (sweeps : Nat) :
    (Search.run g sweeps s).Permutes first := by
  induction sweeps generalizing s with
  | zero => exact h
  | succ sweeps ih =>
    unfold Search.run
    split
    · exact ih (h.step g)
    · exact h

theorem minimize_permuted (layers : Layers) : Permuted (g.minimize layers).1 layers :=
  (Search.Permutes.run g (s := { layers, best := layers, fewest := g.crossings layers })
    ⟨.refl _, .refl _⟩ maxSweeps).best

theorem Complete.minimize {layers : Layers} (h : g.Complete layers) :
    g.Complete (g.minimize layers).1 :=
  h.permuted (g.minimize_permuted layers)

end Layered
end Tiered.Layering
