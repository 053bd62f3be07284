import Mathlib.Data.List.Forall2
import Mathlib.Data.List.GetD
import Mathlib.Data.List.Nodup
import Tiered.Layering.Layered
import Tiered.Proofs.Writes

/-!
# Layers hold each node once

The layers of a layered graph start from a walk over it and are then only permuted.

* `Permuted`: the same nodes layer by layer;
* `Complete`: each node once, in the layer of its rank; it survives every permutation;
* `visit_marked`, `trail_perm`: the walk passes each node once, so the first arrangement is
  complete (`complete_arrange`);
* `getD_places`: the places noted for a complete arrangement are the places in its layers.
-/

namespace Tiered.Layering

/-- The same nodes layer by layer, perhaps in another order. -/
def Permuted (a b : Layers) : Prop := List.Forall₂ List.Perm a b

namespace Permuted

theorem refl (a : Layers) : Permuted a a :=
  List.forall₂_same.mpr fun _ _ => List.Perm.refl _

theorem trans {a b c : Layers} (h : Permuted a b) (k : Permuted b c) : Permuted a c := by
  induction h generalizing c with
  | nil => exact k
  | cons hl _ ih =>
    cases k with
    | cons kl krest => exact .cons (hl.trans kl) (ih krest)

theorem reverse {a b : Layers} (h : Permuted a b) : Permuted a.reverse b.reverse :=
  List.forall₂_reverse_iff.mpr h

theorem getD {a b : Layers} (h : Permuted a b) (r : Nat) : (a.getD r []).Perm (b.getD r []) := by
  induction h generalizing r with
  | nil => exact List.Perm.refl _
  | cons hl _ ih =>
    cases r with
    | zero => exact hl
    | succ r => exact ih r

end Permuted

namespace Layered

variable {g : Layered}

/-! ## The layers of all nodes -/

/-- The nodes of a rank, in the order of their numbers. -/
def nodesOf (g : Layered) (r : Nat) : List Nat :=
  (List.range g.size).filter fun v => g.rankOf v = r

theorem mem_nodesOf {r v : Nat} : v ∈ g.nodesOf r ↔ v < g.size ∧ g.rankOf v = r := by
  simp [nodesOf]

theorem nodup_nodesOf (g : Layered) (r : Nat) : (g.nodesOf r).Nodup :=
  List.nodup_range.filter _

/-- The layer of each rank holds the nodes of the rank, each of them once. -/
structure Complete (g : Layered) (layers : Layers) : Prop where
  depth : layers.length = g.depth
  perm : ∀ r, (layers.getD r []).Perm (g.nodesOf r)

namespace Complete

variable {layers : Layers}

theorem permuted {other : Layers} (h : g.Complete layers) (hp : Permuted other layers) :
    g.Complete other :=
  ⟨hp.length_eq.trans h.depth, fun r => (hp.getD r).trans (h.perm r)⟩

theorem mem_getD (h : g.Complete layers) {r v : Nat} :
    v ∈ layers.getD r [] ↔ v < g.size ∧ g.rankOf v = r :=
  (h.perm r).mem_iff.trans mem_nodesOf

theorem mem_getElem (h : g.Complete layers) {r v : Nat} (hr : r < layers.length) :
    v ∈ layers[r] ↔ v < g.size ∧ g.rankOf v = r := by
  rw [← h.mem_getD, List.getD_eq_getElem _ _ hr]

theorem lt_size (h : g.Complete layers) {layer : List Nat} (hl : layer ∈ layers) {v : Nat}
    (hv : v ∈ layer) : v < g.size := by
  obtain ⟨r, hr, rfl⟩ := List.mem_iff_getElem.mp hl
  exact ((h.mem_getElem hr).mp hv).1

theorem nodup_flatten (h : g.Complete layers) : layers.flatten.Nodup := by
  refine List.nodup_flatten.mpr ⟨?_, ?_⟩
  · intro layer hl
    obtain ⟨r, hr, rfl⟩ := List.mem_iff_getElem.mp hl
    rw [← List.getD_eq_getElem _ [] hr]
    exact (h.perm r).nodup_iff.mpr (nodup_nodesOf g r)
  · refine List.pairwise_iff_getElem.mpr ?_
    intro i j hi hj hij v hvi hvj
    have hri := ((h.mem_getElem hi).mp hvi).2
    have hrj := ((h.mem_getElem hj).mp hvj).2
    omega

theorem nodup (h : g.Complete layers) {layer : List Nat} (hl : layer ∈ layers) : layer.Nodup :=
  (List.nodup_flatten.mp h.nodup_flatten).1 layer hl

/-- Layers with a node in common are the same. -/
theorem eq_of_mem (h : g.Complete layers) {a b : List Nat} (ha : a ∈ layers) (hb : b ∈ layers)
    {v : Nat} (hva : v ∈ a) (hvb : v ∈ b) : a = b := by
  obtain ⟨i, hi, rfl⟩ := List.mem_iff_getElem.mp ha
  obtain ⟨j, hj, rfl⟩ := List.mem_iff_getElem.mp hb
  have hrank := ((h.mem_getElem hi).mp hva).2.symm.trans ((h.mem_getElem hj).mp hvb).2
  subst hrank
  rfl

end Complete

/-- The depth that is counted is above the one counted before and above all ranks. -/
theorem lt_foldl_depth (ranks : List Nat) (d : Nat) :
    d ≤ ranks.foldl (fun d r => max d (r + 1)) d ∧
      ∀ r ∈ ranks, r < ranks.foldl (fun d r => max d (r + 1)) d := by
  induction ranks generalizing d with
  | nil => exact ⟨Nat.le_refl d, fun r hr => nomatch hr⟩
  | cons r rest ih =>
    obtain ⟨hd, hrest⟩ := ih (max d (r + 1))
    rw [List.foldl_cons]
    refine ⟨by omega, ?_⟩
    intro s hs
    rcases List.mem_cons.mp hs with rfl | hs
    · omega
    · exact hrest s hs

theorem rankOf_lt_depth {v : Nat} (hv : v < g.size) : g.rankOf v < g.depth := by
  have hmem : g.rankOf v ∈ g.rank.toList := by
    unfold rankOf
    have hv' : v < g.rank.size := hv
    simp [Array.getD_eq_getD_getElem?, hv']
  rw [depth, ← Array.foldl_toList]
  exact (lt_foldl_depth _ 0).2 _ hmem

/-! ## Real and virtual nodes -/

theorem exists_addChain_eq (ranks : Array Nat) (chains : List (Option (List Nat)))
    (edge : Option Arc) :
    ∃ virtual, (addChain (ranks, chains) edge).1.toList = ranks.toList ++ virtual := by
  cases edge with
  | none => exact ⟨[], (List.append_nil _).symm⟩
  | some arc => exact ⟨_, Array.toList_appendList⟩

/-- Virtual nodes are numbered behind the real ones. -/
theorem exists_rank_eq (ranks : Array Nat) (edges : List (Option Arc)) :
    ∃ virtual, (ofEdges ranks edges).rank.toList = ranks.toList ++ virtual := by
  change ∃ virtual, (edges.foldl addChain (ranks, [])).1.toList = ranks.toList ++ virtual
  refine List.foldlRecOn (motive := fun s : Array Nat × List (Option (List Nat)) =>
    ∃ virtual, s.1.toList = ranks.toList ++ virtual) _ _ ⟨[], (List.append_nil _).symm⟩ ?_
  rintro ⟨rs, chains⟩ ⟨virtual, hrs⟩ edge -
  obtain ⟨more, hmore⟩ := exists_addChain_eq rs chains edge
  exact ⟨virtual ++ more, by rw [hmore, hrs, List.append_assoc]⟩

theorem length_chains (ranks : Array Nat) (edges : List (Option Arc)) :
    (ofEdges ranks edges).chains.length = edges.length := by
  change (edges.foldl addChain (ranks, [])).2.reverse.length = edges.length
  rw [List.length_reverse]
  have hfold : ∀ s : Array Nat × List (Option (List Nat)),
      (edges.foldl addChain s).2.length = s.2.length + edges.length := by
    induction edges with
    | nil => exact fun _ => rfl
    | cons edge rest ih =>
      intro s
      rw [List.foldl_cons, ih, List.length_cons]
      cases edge <;> simp only [addChain, List.length_cons] <;> omega
  exact (hfold _).trans (Nat.zero_add _)

theorem real_ofEdges (ranks : Array Nat) (edges : List (Option Arc)) :
    (ofEdges ranks edges).real = ranks.size := rfl

theorem real_le_size (ranks : Array Nat) (edges : List (Option Arc)) :
    ranks.size ≤ (ofEdges ranks edges).size := by
  obtain ⟨virtual, hrank⟩ := exists_rank_eq ranks edges
  have hlength := congrArg List.length hrank
  rw [List.length_append, Array.length_toList, Array.length_toList] at hlength
  rw [size, hlength]
  exact Nat.le_add_right _ _

theorem rankOf_real {ranks : Array Nat} {edges : List (Option Arc)} {v : Nat}
    (hv : v < ranks.size) : (ofEdges ranks edges).rankOf v = ranks.getD v 0 := by
  obtain ⟨virtual, hrank⟩ := exists_rank_eq ranks edges
  simp only [rankOf, Array.getD_eq_getD_getElem?, ← Array.getElem?_toList, hrank]
  rw [List.getElem?_append_left (by rwa [Array.length_toList])]

theorem isVirtual_real {ranks : Array Nat} {edges : List (Option Arc)} {v : Nat}
    (hv : v < ranks.size) : (ofEdges ranks edges).isVirtual v = false := by
  rw [isVirtual, real_ofEdges, decide_eq_false_iff_not]
  omega

/-! ## The first arrangement -/

/-- The trail holds the nodes that are marked as seen, each of them once. -/
structure Visit.Marked (s : Visit) (n : Nat) : Prop where
  size : s.seen.size = n
  nodup : s.trail.Nodup
  bound : ∀ v ∈ s.trail, v < n
  seen : ∀ v < n, s.seen.getD v true = true ↔ v ∈ s.trail

theorem Visit.Marked.push {n : Nat} {s : Visit} (h : s.Marked n) {v : Nat}
    (hv : s.seen.getD v true = false) :
    Visit.Marked { seen := s.seen.setIfInBounds v true, trail := v :: s.trail } n := by
  have hn : v < n := h.size ▸ lt_size_of_getD_false hv
  have hnew : v ∉ s.trail := by
    rw [← h.seen v hn, hv]
    exact Bool.false_ne_true
  constructor
  · rw [Array.size_setIfInBounds]
    exact h.size
  · exact List.nodup_cons.mpr ⟨hnew, h.nodup⟩
  · intro w hw
    rcases List.mem_cons.mp hw with rfl | hw
    · exact hn
    · exact h.bound w hw
  · intro w hw
    rw [List.mem_cons, ← h.seen w hw]
    exact getD_setIfInBounds_true

theorem visit_marked {n levels : Nat} {s : Visit} (h : s.Marked n) (v : Nat) :
    (g.visit levels s v).Marked n := by
  induction levels generalizing s v with
  | zero => exact h
  | succ levels ih =>
    unfold visit
    split
    · exact h
    · rename_i hv
      exact List.foldlRecOn (motive := fun t : Visit => t.Marked n) _ _
        (h.push (by simpa using hv)) fun t ht w _ => ih ht w

theorem trail_subset_visit {levels : Nat} {s : Visit} (v : Nat) :
    s.trail ⊆ (g.visit levels s v).trail := by
  induction levels generalizing s v with
  | zero => exact fun _ hw => hw
  | succ levels ih =>
    unfold visit
    split
    · exact fun _ hw => hw
    · exact List.foldlRecOn (motive := fun t : Visit => s.trail ⊆ t.trail) _ _
        (List.subset_cons_self _ _) fun t ht w _ => List.Subset.trans ht (ih w)

theorem mem_visit {n levels : Nat} {s : Visit} (h : s.Marked n) {v : Nat} (hv : v < n) :
    v ∈ (g.visit (levels + 1) s v).trail := by
  unfold visit
  split
  · rename_i hs
    exact (h.seen v hv).mp hs
  · exact List.foldlRecOn (motive := fun t : Visit => v ∈ t.trail) _ _ List.mem_cons_self
      fun t ht w _ => trail_subset_visit w ht

/-- Nodes visited one after the other are all passed. -/
theorem subset_foldl_visit {n levels : Nat} {vs : List Nat} (hvs : ∀ v ∈ vs, v < n) {s : Visit}
    (h : s.Marked n) : vs ⊆ (vs.foldl (g.visit (levels + 1)) s).trail := by
  induction vs generalizing s with
  | nil => exact fun _ hv => nomatch hv
  | cons v vs ih =>
    have hrest : vs ⊆ (vs.foldl (g.visit (levels + 1)) (g.visit (levels + 1) s v)).trail :=
      ih (fun w hw => hvs w (List.mem_cons_of_mem _ hw)) (visit_marked h v)
    have hkept : (g.visit (levels + 1) s v).trail ⊆
        (vs.foldl (g.visit (levels + 1)) (g.visit (levels + 1) s v)).trail :=
      List.foldlRecOn (motive := fun t : Visit => (g.visit (levels + 1) s v).trail ⊆ t.trail) _ _
        (fun _ hw => hw) fun t ht w _ => List.Subset.trans ht (trail_subset_visit w)
    intro w hw
    rcases List.mem_cons.mp hw with rfl | hw
    · exact hkept (mem_visit h (hvs w List.mem_cons_self))
    · exact hrest hw

theorem byRank_perm (g : Layered) : g.byRank.Perm (List.range g.size) :=
  List.mergeSort_perm _ _

/-- Nodes that are numbered by rank are walked through by their numbers. -/
theorem byRank_eq_range (h : (List.range g.size).Pairwise fun a b => g.rankOf a ≤ g.rankOf b) :
    g.byRank = List.range g.size :=
  List.mergeSort_of_pairwise (h.imp fun hle => decide_eq_true hle)

/-- Nothing is marked before the walk starts. -/
theorem marked_start (n : Nat) :
    Visit.Marked { seen := Array.replicate n false } n := by
  refine ⟨Array.size_replicate, List.nodup_nil, ?_, ?_⟩
  · exact fun _ hv => nomatch hv
  · intro v hv
    simp [Array.getD_eq_getD_getElem?, hv]

theorem trail_perm (g : Layered) : g.trail.Perm (List.range g.size) := by
  have hmarked : (g.byRank.foldl (g.visit g.depth)
      { seen := Array.replicate g.size false }).Marked g.size :=
    List.foldlRecOn (motive := fun t : Visit => t.Marked g.size) _ _ (marked_start g.size)
      fun s hs v _ => visit_marked hs v
  refine (List.perm_ext_iff_of_nodup hmarked.nodup List.nodup_range).mpr ?_
  intro v
  rw [List.mem_range]
  refine ⟨hmarked.bound v, ?_⟩
  intro hv
  obtain ⟨levels, hdepth⟩ : ∃ levels, g.depth = levels + 1 :=
    Nat.exists_eq_succ_of_ne_zero (by have := rankOf_lt_depth hv; omega)
  have hmem : v ∈ g.byRank := (byRank_perm g).mem_iff.mpr (List.mem_range.mpr hv)
  rw [hdepth]
  exact subset_foldl_visit (fun w hw => List.mem_range.mp ((byRank_perm g).mem_iff.mp hw))
    (marked_start g.size) hmem

theorem length_arrange (g : Layered) : g.arrange.length = g.depth := by
  rw [arrange, Array.length_toList, size_modifies g.rankOf (fun v => v), Array.size_replicate]

/-- A layer lists the nodes of its rank as the walk passes them. -/
theorem getD_arrange {r : Nat} (hr : r < g.depth) :
    g.arrange.getD r [] = (g.trail.filter fun v => g.rankOf v = r).reverse := by
  have hget : g.arrange.getD r [] =
      (g.trail.foldl (fun layers v => layers.modify (g.rankOf v) (v :: ·))
        (Array.replicate g.depth [])).getD r [] := by
    simp [arrange, List.getD_eq_getElem?_getD, Array.getD_eq_getD_getElem?]
  rw [hget, getD_modifies g.rankOf (fun v => v) _ _ (by rwa [Array.size_replicate]),
    getD_replicate, List.append_nil, List.map_id']

theorem complete_arrange (g : Layered) : g.Complete g.arrange := by
  refine ⟨length_arrange g, fun r => ?_⟩
  by_cases hr : r < g.depth
  · rw [getD_arrange hr]
    exact (List.reverse_perm _).trans ((trail_perm g).filter _)
  · have hnone : g.nodesOf r = [] := by
      refine List.filter_eq_nil_iff.mpr ?_
      intro v hv
      have := rankOf_lt_depth (List.mem_range.mp hv)
      simp only [decide_eq_true_eq]
      omega
    rw [List.getD_eq_default _ _ (by rw [length_arrange]; exact Nat.le_of_not_lt hr), hnone]

/-! ## Places -/

theorem foldl_note (layers : Layers) (places : Array Nat) :
    layers.foldl note places = writes places (layers.flatMap fun layer => layer.zipIdx) := by
  induction layers generalizing places with
  | nil => rfl
  | cons layer rest ih =>
    rw [List.foldl_cons, ih, List.flatMap_cons, writes_append]
    rfl

theorem map_fst_zipIdx (layers : Layers) :
    (layers.flatMap fun layer => layer.zipIdx).map Prod.fst = layers.flatten := by
  induction layers with
  | nil => rfl
  | cons layer rest ih =>
    rw [List.flatMap_cons, List.map_append, ih, List.zipIdx_map_fst, List.flatten_cons]

theorem size_places (g : Layered) (layers : Layers) : (g.places layers).size = g.size := by
  rw [places, foldl_note, size_writes, Array.size_replicate]

theorem getD_places {layers : Layers} (h : g.Complete layers) {layer : List Nat}
    (hl : layer ∈ layers) {i : Nat} (hi : i < layer.length) :
    (g.places layers).getD layer[i] 0 = i := by
  rw [places, foldl_note]
  refine getD_writes_of_mem ?_ ?_ ?_ 0
  · rw [map_fst_zipIdx]
    exact h.nodup_flatten
  · refine List.mem_flatMap.mpr ⟨layer, hl, ?_⟩
    exact List.mem_zipIdx_iff_getElem?.mpr (List.getElem?_eq_getElem hi)
  · rw [Array.size_replicate]
    exact h.lt_size hl (List.getElem_mem hi)

/-- Each node stands in the layer of its rank, at its place. -/
theorem exists_getElem_place {layers : Layers} (h : g.Complete layers) {v : Nat}
    (hv : v < g.size) :
    ∃ hr : g.rankOf v < layers.length,
      ∃ hi : (g.places layers).getD v 0 < layers[g.rankOf v].length,
        layers[g.rankOf v][(g.places layers).getD v 0] = v := by
  have hr : g.rankOf v < layers.length := by
    rw [h.depth]
    exact rankOf_lt_depth hv
  obtain ⟨i, hi, hiv⟩ := List.mem_iff_getElem.mp ((h.mem_getElem hr).mpr ⟨hv, rfl⟩)
  have hplace := getD_places h (List.getElem_mem hr) hi
  rw [hiv] at hplace
  simp only [hplace]
  exact ⟨hr, hi, hiv⟩

/-- Nodes of one rank have places that differ. -/
theorem places_ne {layers : Layers} (h : g.Complete layers) {v w : Nat} (hv : v < g.size)
    (hw : w < g.size) (hvw : v ≠ w) (hrank : g.rankOf v = g.rankOf w) :
    (g.places layers).getD v 0 ≠ (g.places layers).getD w 0 := by
  intro hplace
  obtain ⟨_, _, hgetv⟩ := exists_getElem_place h hv
  obtain ⟨_, _, hgetw⟩ := exists_getElem_place h hw
  apply hvw
  rw [← hgetv, ← hgetw]
  simp only [hrank, hplace]

end Layered
end Tiered.Layering
