import Tiered.Proofs.Layering.Search

/-!
# The first arrangement of a forest has no crossings

The first arrangement lists the nodes of each rank as a walk passes them, depth first.

* `Preorder`: each node on the trail was entered from above if anything is above it, and whatever
  was passed before it, and is not higher, was left with all that is below;
* `Walk.visit`: one visit keeps this, `preorder_trail`: so does the walk over all nodes;
* `idxOf_trail_lt`: nodes of one rank stand in the order in which they were passed;
* `crossings_arrange`: so segments only cross where a node has more than one above it, and
  `minimize_of_crossings_eq_zero`: without crossings there is nothing to search for.
-/

namespace Tiered.Layering.Layered

variable {g : Layered}

/-! ## The trail -/

/-- Nodes of rank `r` or below are done with: all that is below them was passed. -/
def Done (g : Layered) (r : Nat) (trail : List Nat) : Prop :=
  ∀ u ∈ trail, r ≤ g.rankOf u → ∀ w ∈ g.below u, w ∈ trail

/-- Something above a node was passed, unless nothing is above it. -/
def Entered (g : Layered) (trail : List Nat) (v : Nat) : Prop :=
  g.above v ≠ [] → ∃ u ∈ g.above v, u ∈ trail

/-- The nodes of a walk, the last one first. When one is passed it was entered, and those passed
before it that are not higher are done with. -/
inductive Preorder (g : Layered) : List Nat → Prop
  | nil : Preorder g []
  | cons {v : Nat} {trail : List Nat} (hentered : g.Entered trail v)
      (hdone : g.Done (g.rankOf v) trail) (h : Preorder g trail) : Preorder g (v :: trail)

theorem idxOf_cons_lt {v x y : Nat} {trail : List Nat} (hv : v ∉ trail) (hx : x ∈ trail)
    (hy : y ∈ trail) (h : trail.idxOf x < trail.idxOf y) :
    (v :: trail).idxOf x < (v :: trail).idxOf y := by
  have hvx : v ≠ x := fun heq => hv (heq ▸ hx)
  have hvy : v ≠ y := fun heq => hv (heq ▸ hy)
  rw [List.idxOf_cons_ne _ hvx, List.idxOf_cons_ne _ hvy]
  omega

theorem idxOf_self_lt {v x : Nat} {trail : List Nat} (hv : v ∉ trail) (hx : x ∈ trail) :
    (v :: trail).idxOf v < (v :: trail).idxOf x := by
  have hvx : v ≠ x := fun heq => hv (heq ▸ hx)
  rw [List.idxOf_cons_self, List.idxOf_cons_ne _ hvx]
  omega

/-- A node is passed after one that is above it. -/
theorem Preorder.entered {trail : List Nat} (h : g.Preorder trail) (hd : trail.Nodup) {y : Nat}
    (hy : y ∈ trail) (habove : g.above y ≠ []) :
    ∃ u ∈ g.above y, u ∈ trail ∧ trail.idxOf y < trail.idxOf u := by
  induction h with
  | nil => cases hy
  | @cons v trail hentered _ _ ih =>
    obtain ⟨hv, hd⟩ := List.nodup_cons.mp hd
    rcases List.mem_cons.mp hy with rfl | hy
    · obtain ⟨u, hu, hmem⟩ := hentered habove
      exact ⟨u, hu, List.mem_cons_of_mem _ hmem, idxOf_self_lt hv hmem⟩
    · obtain ⟨u, hu, hmem, hlt⟩ := ih hd hy
      exact ⟨u, hu, List.mem_cons_of_mem _ hmem, idxOf_cons_lt hv hy hmem hlt⟩

/-- When a node is passed, so is all that is below the nodes of its rank passed before. -/
theorem Preorder.done {trail : List Nat} (h : g.Preorder trail) (hd : trail.Nodup) {a b x : Nat}
    (ha : a ∈ trail) (hb : b ∈ trail) (hlt : trail.idxOf b < trail.idxOf a)
    (hrank : g.rankOf b ≤ g.rankOf a) (hx : x ∈ g.below a) :
    x ∈ trail ∧ trail.idxOf b < trail.idxOf x := by
  induction h with
  | nil => cases ha
  | @cons v trail _ hdone _ ih =>
    obtain ⟨hv, hd⟩ := List.nodup_cons.mp hd
    have hva : v ≠ a := by
      rintro rfl
      rw [List.idxOf_cons_self] at hlt
      exact Nat.not_lt_zero _ hlt
    have ha : a ∈ trail := (List.mem_cons.mp ha).resolve_left hva.symm
    by_cases hvb : v = b
    · subst hvb
      have hmem := hdone a ha hrank x hx
      exact ⟨List.mem_cons_of_mem _ hmem, idxOf_self_lt hv hmem⟩
    · have hb : b ∈ trail := (List.mem_cons.mp hb).resolve_left (Ne.symm hvb)
      rw [List.idxOf_cons_ne _ hvb, List.idxOf_cons_ne _ hva] at hlt
      obtain ⟨hmem, hlt⟩ := ih hd ha hb (Nat.lt_of_succ_lt_succ hlt)
      exact ⟨List.mem_cons_of_mem _ hmem, idxOf_cons_lt hv hb hmem hlt⟩

/-! ## The walk -/

/-- A walk so far, in which all nodes of rank `r` or below are done with. -/
structure Walk (g : Layered) (r : Nat) (s : Visit) : Prop where
  marked : s.Marked g.size
  preorder : g.Preorder s.trail
  done : g.Done r s.trail

/-- A visit passes a node and then all that is below it, and nothing that is not lower. -/
theorem Walk.visit (hg : g.Joined) {levels : Nat} {s : Visit} {v : Nat} (hv : v < g.size)
    (hlevels : g.depth ≤ g.rankOf v + levels) (h : g.Walk (g.rankOf v) s)
    (hentered : g.Entered s.trail v) :
    g.Walk (g.rankOf v) (g.visit levels s v) ∧
      ∀ u ∈ (g.visit levels s v).trail, u ∈ s.trail ∨ u = v ∨ g.rankOf v < g.rankOf u := by
  induction levels generalizing s v with
  | zero =>
    have := rankOf_lt_depth hv
    omega
  | succ levels ih =>
    unfold Layered.visit
    split
    · exact ⟨h, fun u hu => .inl hu⟩
    rename_i hnew
    have hnew : s.seen.getD v true = false := by simpa using hnew
    have hmarked := h.marked.push hnew
    let start : Visit := { seen := s.seen.setIfInBounds v true, trail := v :: s.trail }
    have hstart : g.Walk (g.rankOf v + 1) start := by
      refine ⟨hmarked, .cons hentered h.done h.preorder, fun u hu hrank w hw => ?_⟩
      rcases List.mem_cons.mp hu with rfl | hu
      · omega
      · exact List.mem_cons_of_mem _ (h.done u hu (by omega) w hw)
    -- Visits to the nodes below leave all nodes of this rank alone.
    have hbelow : g.Walk (g.rankOf v + 1) ((g.below v).foldl (g.visit levels) start) ∧
        start.trail ⊆ ((g.below v).foldl (g.visit levels) start).trail ∧
        ∀ u ∈ ((g.below v).foldl (g.visit levels) start).trail,
          u ∈ start.trail ∨ g.rankOf v < g.rankOf u := by
      refine List.foldlRecOn (motive := fun t : Visit => g.Walk (g.rankOf v + 1) t ∧
        start.trail ⊆ t.trail ∧ ∀ u ∈ t.trail, u ∈ start.trail ∨ g.rankOf v < g.rankOf u) _ _
        ⟨hstart, List.Subset.refl _, fun u hu => .inl hu⟩ ?_
      rintro t ⟨hwalk, hkept, hlower⟩ w hw
      obtain ⟨hsize, hrank⟩ := mem_below hg hv hw
      have hentered : g.Entered t.trail w := fun _ =>
        ⟨v, (hg.mem_above_iff hsize).mpr ((hg.mem_below_iff hv).mp hw), hkept List.mem_cons_self⟩
      obtain ⟨hnext, hpassed⟩ := ih hsize (by omega) (hrank ▸ hwalk) hentered
      refine ⟨hrank ▸ hnext, List.Subset.trans hkept (trail_subset_visit w), fun u hu => ?_⟩
      rcases hpassed u hu with hu | rfl | hu
      · exact hlower u hu
      · exact .inr (by omega)
      · exact .inr (by omega)
    obtain ⟨hwalk, hkept, hlower⟩ := hbelow
    have hall : g.below v ⊆ ((g.below v).foldl (g.visit levels) start).trail := by
      cases levels with
      | succ levels =>
        exact subset_foldl_visit (fun w hw => (mem_below hg hv hw).1) hmarked
      | zero =>
        intro w hw
        obtain ⟨hsize, hrank⟩ := mem_below hg hv hw
        have := rankOf_lt_depth hsize
        omega
    refine ⟨⟨hwalk.marked, hwalk.preorder, fun u hu hrank w hw => ?_⟩, fun u hu => ?_⟩
    · rcases Nat.eq_or_lt_of_le hrank with heq | hlt
      · -- The nodes of this rank are `v` and those that were done with before.
        rcases hlower u hu with hu | hu
        · rcases List.mem_cons.mp hu with rfl | hu
          · exact hall hw
          · exact hkept (List.mem_cons_of_mem _ (h.done u hu hrank w hw))
        · omega
      · exact hwalk.done u hu hlt w hw
    · rcases hlower u hu with hu | hu
      · exact (List.mem_cons.mp hu).elim (fun h => .inr (.inl h)) .inl
      · exact .inr (.inr hu)

theorem pairwise_byRank (g : Layered) : g.byRank.Pairwise fun a b => g.rankOf a ≤ g.rankOf b := by
  refine (List.pairwise_mergeSort ?_ ?_ (List.range g.size)).imp fun h => by simpa using h
  · intro a b c hab hbc
    simp only [decide_eq_true_eq] at *
    omega
  · intro a b
    simp only [Bool.or_eq_true, decide_eq_true_eq]
    omega

/-- All nodes are passed in preorder: nothing starts a walk before all that is higher was passed. -/
theorem preorder_trail (hg : g.Joined) : g.Preorder g.trail := by
  have hfold : ∀ (rest done : List Nat) (s : Visit), g.byRank = done ++ rest → g.Walk 0 s →
      done ⊆ s.trail → g.Preorder (rest.foldl (g.visit g.depth) s).trail := by
    intro rest
    induction rest with
    | nil => exact fun _ _ _ h _ => h.preorder
    | cons v rest ih =>
      intro done s hsplit h hdone
      have hbound : ∀ u ∈ g.byRank, u < g.size := fun u hu =>
        List.mem_range.mp ((byRank_perm g).mem_iff.mp hu)
      have hv : v < g.size := hbound v (by simp [hsplit])
      have hentered : g.Entered s.trail v := by
        intro habove
        obtain ⟨u, hu⟩ := List.exists_mem_of_ne_nil _ habove
        obtain ⟨hsize, hrank⟩ := mem_above hg hv hu
        have hmem : u ∈ g.byRank := (byRank_perm g).mem_iff.mpr (List.mem_range.mpr hsize)
        rw [hsplit] at hmem
        have hsorted := pairwise_byRank g
        rw [hsplit] at hsorted
        have hbehind := List.pairwise_cons.mp (List.pairwise_append.mp hsorted).2.1
        rcases List.mem_append.mp hmem with hmem | hmem
        · exact ⟨u, hu, hdone hmem⟩
        · rcases List.mem_cons.mp hmem with rfl | hmem
          · omega
          · have := hbehind.1 u hmem
            omega
      obtain ⟨hwalk, hpassed⟩ := Walk.visit hg hv (Nat.le_add_left _ _)
        ⟨h.marked, h.preorder, fun u hu _ => h.done u hu (Nat.zero_le _)⟩ hentered
      refine ih (done ++ [v]) _ (by simp [hsplit]) ⟨hwalk.marked, hwalk.preorder, ?_⟩ ?_
      · intro u hu _ w hw
        rcases hpassed u hu with hu | rfl | hlower
        · exact trail_subset_visit v (h.done u hu (Nat.zero_le _) w hw)
        · exact hwalk.done u hu (Nat.le_refl _) w hw
        · exact hwalk.done u hu hlower.le w hw
      · obtain ⟨levels, hdepth⟩ : ∃ levels, g.depth = levels + 1 :=
          Nat.exists_eq_succ_of_ne_zero (by have := rankOf_lt_depth hv; omega)
        rw [hdepth]
        intro u hu
        rcases List.mem_append.mp hu with hu | hu
        · exact trail_subset_visit v (hdone hu)
        · rw [List.mem_singleton.mp hu]
          exact mem_visit h.marked hv
  exact hfold g.byRank [] _ rfl
    ⟨marked_start g.size, .nil, fun _ hu => nomatch hu⟩ (List.nil_subset _)

/-! ## The first arrangement -/

theorem nodup_trail (g : Layered) : g.trail.Nodup :=
  (trail_perm g).nodup_iff.mpr List.nodup_range

theorem mem_trail {v : Nat} (hv : v < g.size) : v ∈ g.trail :=
  (trail_perm g).mem_iff.mpr (List.mem_range.mpr hv)

/-- Nodes of one rank stand in the order in which they were passed. -/
theorem idxOf_trail_lt {v w : Nat} (hv : v < g.size) (hw : w < g.size)
    (hrank : g.rankOf v = g.rankOf w) (h : g.place g.arrange v < g.place g.arrange w) :
    g.trail.idxOf w < g.trail.idxOf v := by
  have hcomplete := complete_arrange g
  have hlayer : (g.arrange.getD (g.rankOf v) []).Pairwise fun a b =>
      g.trail.idxOf b < g.trail.idxOf a := by
    rw [getD_arrange (rankOf_lt_depth hv), List.pairwise_reverse]
    refine List.Pairwise.filter _ (List.pairwise_iff_getElem.mpr fun i j hi hj hij => ?_)
    rwa [(nodup_trail g).idxOf_getElem, (nodup_trail g).idxOf_getElem]
  have hmemv := hcomplete.mem_getD.mpr ⟨hv, rfl⟩
  have hmemw := hcomplete.mem_getD.mpr ⟨hw, hrank.symm⟩
  rw [place_eq_idxOf hcomplete hv, place_eq_idxOf hcomplete hw, ← hrank] at h
  have hpair := List.pairwise_iff_getElem.mp hlayer _ _ (List.idxOf_lt_length_of_mem hmemv)
    (List.idxOf_lt_length_of_mem hmemw) h
  rwa [List.getElem_idxOf, List.getElem_idxOf] at hpair

/-- Segments that cross lead down to a node that has something else above it. -/
theorem exists_above_of_cross (hg : g.Joined) {s t : Arc} (hs : s ∈ g.arcs) (ht : t ∈ g.arcs)
    (h : g.Cross g.arrange s t) : ∃ u ∈ g.above t.2, u ≠ t.1 := by
  obtain ⟨hrank, hupper, hlower⟩ := h
  obtain ⟨hs1, hs2⟩ := hg.bound s hs
  obtain ⟨ht1, ht2⟩ := hg.bound t ht
  have hsrank := hg.rank s hs
  have htrank := hg.rank t ht
  have hbefore := idxOf_trail_lt hs1 ht1 hrank hupper
  have hlast := idxOf_trail_lt ht2 hs2 (by omega) hlower
  have hbelow : s.2 ∈ g.below s.1 := (hg.mem_below_iff hs1).mpr hs
  have habove : t.1 ∈ g.above t.2 := (hg.mem_above_iff ht2).mpr ht
  -- All below the first upper end is passed before the second, which is passed before its own.
  have hpreorder := preorder_trail hg
  obtain ⟨-, hfirst⟩ := hpreorder.done (nodup_trail g) (mem_trail hs1) (mem_trail ht1) hbefore
    (by omega) hbelow
  obtain ⟨u, hu, -, hentered⟩ := hpreorder.entered (nodup_trail g) (mem_trail ht2)
    (List.ne_nil_of_mem habove)
  refine ⟨u, hu, ?_⟩
  rintro rfl
  omega

/-- Where no node has more than one segment above it, nothing crosses at first. -/
theorem crossings_arrange (hg : g.Joined) (hsingle : ∀ v < g.size, (g.above v).length ≤ 1) :
    g.crossings g.arrange = 0 := by
  rw [crossings_eq hg (complete_arrange g), crossingPairs, List.countP_eq_zero]
  rintro ⟨s, t⟩ hmem
  obtain ⟨hs, ht⟩ := List.mem_product.mp hmem
  simp only [decide_eq_true_eq]
  intro hcross
  obtain ⟨u, hu, hne⟩ := exists_above_of_cross hg hs ht hcross
  have ht2 := (hg.bound t ht).2
  have habove : t.1 ∈ g.above t.2 := (hg.mem_above_iff ht2).mpr ht
  obtain ⟨only, honly⟩ := List.length_eq_one_iff.mp
    (Nat.le_antisymm (hsingle _ ht2) (List.length_pos_of_mem hu))
  rw [honly, List.mem_singleton] at hu habove
  exact hne (hu.trans habove.symm)

/-- Without crossings there is nothing to search for. -/
theorem minimize_of_crossings_eq_zero {layers : Layers} (h : g.crossings layers = 0) :
    g.minimize layers = (layers, 0) := by
  unfold minimize maxSweeps Search.run
  simp [h]

end Tiered.Layering.Layered
