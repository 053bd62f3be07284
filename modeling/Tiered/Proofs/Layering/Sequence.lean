import Mathlib.Data.List.Perm.Subperm
import Mathlib.Data.List.Range
import Tiered.Layering.Feedback
import Tiered.Proofs.Writes

/-!
# Peeling puts every node in sequence once

* `Valid`: the nodes placed so far are those in the sequence, and the others remain; every step of
  peeling keeps this, and it ends when nothing remains (`Valid.run`);
* `placeOf`: so the nodes have places in the sequence that differ, and the arcs that lead back in it
  are the ones to turn around (`feedback_eq`).
-/

namespace Tiered.Layering

/-! ## Neighbours -/

theorem size_successors (n : Nat) (arcs : List Arc) : (successors n arcs).size = n := by
  rw [successors, List.foldr_eq_foldl_reverse, size_modifies Prod.fst Prod.snd,
    Array.size_replicate]

theorem getD_successors (arcs : List Arc) {n u : Nat} (hu : u < n) :
    (successors n arcs).getD u [] = (arcs.filter fun a => a.1 = u).map Prod.snd := by
  rw [successors, List.foldr_eq_foldl_reverse,
    getD_modifies Prod.fst Prod.snd _ _ (by rwa [Array.size_replicate]), getD_replicate,
    List.append_nil, List.filter_reverse, List.map_reverse, List.reverse_reverse]

theorem getD_predecessors (n : Nat) (arcs : List Arc) {v : Nat} (hv : v < n) :
    (predecessors n arcs).getD v [] = (arcs.filter (·.2 = v)).map Prod.fst := by
  rw [predecessors, getD_successors _ hv, List.filter_map, List.map_map]
  rfl

theorem successors_concat (n : Nat) (arcs : List Arc) (a : Arc) :
    successors n (arcs ++ [a]) = (successors n arcs).modify a.1 (· ++ [a.2]) := by
  refine ext_getD [] (by simp [size_successors]) fun v hv => ?_
  rw [size_successors] at hv
  rw [getD_successors _ hv, getD_modify_append _ _ _ (by rwa [size_successors]),
    getD_successors _ hv, List.filter_append, List.map_append]
  by_cases ha : a.1 = v <;> simp [ha]

theorem predecessors_concat (n : Nat) (arcs : List Arc) (a : Arc) :
    predecessors n (arcs ++ [a]) = (predecessors n arcs).modify a.2 (· ++ [a.1]) := by
  rw [predecessors, List.map_append]
  exact successors_concat n _ a.swap

/-! ## The sequence -/

namespace Peeling

/-- The nodes placed are those in the sequence, each of them once; the others remain. -/
structure Valid (n : Nat) (p : Peeling) : Prop where
  size : p.placed.size = n
  nodup : p.sequence.Nodup
  bound : ∀ v ∈ p.sequence, v < n
  placed : ∀ v < n, p.isPlaced v = true ↔ v ∈ p.sequence
  remaining : p.remaining + p.sequence.length = n

variable {g : Network} {n : Nat} {p : Peeling} {v : Nat}

/-- Either end grows in the middle of the sequence. -/
theorem sequence_toLeft (g : Network) (p : Peeling) (v : Nat) :
    (p.toLeft g v).sequence = p.left.reverse ++ v :: p.right := by
  simp [sequence, toLeft, place]

theorem sequence_toRight (g : Network) (p : Peeling) (v : Nat) :
    (p.toRight g v).sequence = p.left.reverse ++ v :: p.right := rfl

theorem Valid.lt (h : p.Valid n) (hv : p.isPlaced v = false) : v < n :=
  h.size ▸ lt_size_of_getD_false hv

theorem Valid.notMem (h : p.Valid n) (hv : p.isPlaced v = false) : v ∉ p.sequence := by
  rw [← h.placed v (h.lt hv), hv]
  exact Bool.false_ne_true

theorem length_le_of_bound {vs : List Nat} (hd : vs.Nodup) (hb : ∀ v ∈ vs, v < n) :
    vs.length ≤ n := by
  have hsub : vs ⊆ List.range n := fun v hv => List.mem_range.mpr (hb v hv)
  simpa using (List.subperm_of_subset hd hsub).length_le

/-- A node that is not placed yet may be placed at either end. -/
theorem Valid.grow (h : p.Valid n) (hv : p.isPlaced v = false) {q : Peeling}
    (hplaced : q.placed = (p.place g v).placed)
    (hremaining : q.remaining = (p.place g v).remaining)
    (hsequence : q.sequence = p.left.reverse ++ v :: p.right) : q.Valid n := by
  have hperm : q.sequence.Perm (v :: p.sequence) := by
    rw [hsequence]
    exact List.perm_middle
  have hnodup : q.sequence.Nodup :=
    hperm.nodup_iff.mpr (List.nodup_cons.mpr ⟨h.notMem hv, h.nodup⟩)
  have hbound : ∀ w ∈ q.sequence, w < n := by
    intro w hw
    rcases List.mem_cons.mp (hperm.mem_iff.mp hw) with rfl | hw
    · exact h.lt hv
    · exact h.bound w hw
  refine ⟨?_, hnodup, hbound, ?_, ?_⟩
  · rw [hplaced, place, Array.size_setIfInBounds]
    exact h.size
  · intro w hw
    rw [isPlaced, hplaced, hperm.mem_iff, List.mem_cons, ← h.placed w hw]
    exact getD_setIfInBounds_true
  · have hlength : q.sequence.length = p.sequence.length + 1 := hperm.length_eq
    have hrest : q.remaining = p.remaining - 1 := hremaining
    have hle := length_le_of_bound hnodup hbound
    have hold := h.remaining
    omega

theorem Valid.toLeft (h : p.Valid n) (hv : p.isPlaced v = false) : (p.toLeft g v).Valid n :=
  h.grow (g := g) hv rfl rfl (sequence_toLeft g p v)

theorem Valid.toRight (h : p.Valid n) (hv : p.isPlaced v = false) : (p.toRight g v).Valid n :=
  h.grow (g := g) hv rfl rfl (sequence_toRight g p v)

theorem valid_start (g : Network) : (start g).Valid g.size := by
  refine ⟨Array.size_replicate, List.nodup_nil, ?_, ?_, rfl⟩
  · exact fun v hv => nomatch hv
  · intro v hv
    simp [isPlaced, start, sequence, Array.getD_eq_getD_getElem?, hv]

theorem isPlaced_of_isSink (h : p.isSink v = true) : p.isPlaced v = false := by
  unfold isSink at h
  simp_all

theorem isPlaced_of_isSource (h : p.isSource v = true) : p.isPlaced v = false := by
  unfold isSource at h
  simp_all

theorem Valid.peelSinks (h : p.Valid n) : (peelSinks g p).Valid n := by
  refine List.foldlRecOn (motive := fun q : Peeling => q.Valid n) _ _ h ?_
  intro q hq v _
  split
  · rename_i hsink
    exact hq.toRight (isPlaced_of_isSink hsink)
  · exact hq

theorem Valid.peelSources (h : p.Valid n) : (peelSources g p).Valid n := by
  refine List.foldlRecOn (motive := fun q : Peeling => q.Valid n) _ _ h ?_
  intro q hq v _
  split
  · rename_i hsource
    exact hq.toLeft (isPlaced_of_isSource hsource)
  · exact hq

/-- Where each node gives way to the next one of a larger key, a largest one is left. -/
theorem foldl_largest (key : Nat → Int) {step : Option Nat → Nat → Option Nat}
    (hstep : ∀ b v, step (some b) v = if key b < key v then some v else some b)
    (vs : List Nat) (b : Nat) : ∃ v, vs.foldl step (some b) = some v ∧ v ∈ b :: vs ∧
      ∀ w ∈ b :: vs, key w ≤ key v := by
  induction vs generalizing b with
  | nil => exact ⟨b, rfl, List.mem_cons_self, fun w hw => List.mem_singleton.mp hw ▸ Int.le_refl _⟩
  | cons u rest ih =>
    rw [List.foldl_cons, hstep]
    split
    · rename_i hlt
      obtain ⟨v, hv, hmem, hlargest⟩ := ih u
      refine ⟨v, hv, List.mem_cons_of_mem _ hmem, ?_⟩
      intro w hw
      rcases List.mem_cons.mp hw with rfl | hw
      · exact Int.le_trans (Int.le_of_lt hlt) (hlargest u List.mem_cons_self)
      · exact hlargest w hw
    · rename_i hge
      obtain ⟨v, hv, hmem, hlargest⟩ := ih b
      have hb := hlargest b List.mem_cons_self
      refine ⟨v, hv, List.cons_subset_cons b (List.subset_cons_self u rest) hmem, ?_⟩
      intro w hw
      rcases List.mem_cons.mp hw with rfl | hw
      · exact hb
      rcases List.mem_cons.mp hw with rfl | hw
      · omega
      · exact hlargest w (List.mem_cons_of_mem _ hw)

/-- Of the nodes that are left, one of the largest surplus is picked. -/
theorem exists_pick? {u : Nat} {rest : List Nat}
    (hleft : (List.range g.size).filter (!p.isPlaced ·) = u :: rest) :
    ∃ v, pick? g p = some v ∧ v < g.size ∧ p.isPlaced v = false ∧
      ∀ w < g.size, p.isPlaced w = false → surplus p w ≤ surplus p v := by
  have hmem : ∀ w, w ∈ u :: rest ↔ w < g.size ∧ p.isPlaced w = false := by
    intro w
    rw [← hleft]
    simp
  have hlargest : ∃ v, pick? g p = some v ∧ v ∈ u :: rest ∧
      ∀ w ∈ u :: rest, surplus p w ≤ surplus p v := by
    rw [pick?, hleft]
    exact foldl_largest (surplus p) (fun _ _ => rfl) rest u
  obtain ⟨v, hv, hin, hlargest⟩ := hlargest
  obtain ⟨hlt, hfree⟩ := (hmem v).mp hin
  exact ⟨v, hv, hlt, hfree, fun w hw hwfree => hlargest w ((hmem w).mpr ⟨hw, hwfree⟩)⟩

/-- A node is picked as long as one is left. -/
theorem pick?_of_not_placed (hv : v < g.size) (hp : p.isPlaced v = false) :
    ∃ w, pick? g p = some w := by
  have hmem : v ∈ (List.range g.size).filter (!p.isPlaced ·) := by simp [hv, hp]
  cases hleft : (List.range g.size).filter (!p.isPlaced ·) with
  | nil =>
    rw [hleft] at hmem
    cases hmem
  | cons w rest =>
    obtain ⟨w, hw, -⟩ := exists_pick? hleft
    exact ⟨w, hw⟩

/-- The picked node is left, and no node that is left has a larger surplus. -/
theorem pick?_eq_some (h : pick? g p = some v) :
    v < g.size ∧ p.isPlaced v = false ∧
      ∀ w < g.size, p.isPlaced w = false → surplus p w ≤ surplus p v := by
  cases hleft : (List.range g.size).filter (!p.isPlaced ·) with
  | nil =>
    rw [pick?, hleft] at h
    cases h
  | cons u rest =>
    obtain ⟨w, hw, hlargest⟩ := exists_pick? hleft
    rw [h, Option.some.injEq] at hw
    exact hw ▸ hlargest

theorem Valid.exists_not_placed (h : p.Valid n) (hr : 0 < p.remaining) :
    ∃ v < n, p.isPlaced v = false := by
  apply Classical.byContradiction
  intro hnone
  have hsub : List.range n ⊆ p.sequence := by
    intro v hv
    have hlt := List.mem_range.mp hv
    apply (h.placed v hlt).mp
    apply Classical.byContradiction
    exact fun hv => hnone ⟨v, hlt, by simpa using hv⟩
  have hle := (List.subperm_of_subset List.nodup_range hsub).length_le
  have hold := h.remaining
  rw [List.length_range] at hle
  omega

/-- When nothing remains, all nodes are in the sequence. -/
theorem Valid.perm (h : p.Valid n) (hr : p.remaining = 0) :
    p.sequence.Perm (List.range n) := by
  have hsub : p.sequence ⊆ List.range n := fun v hv => List.mem_range.mpr (h.bound v hv)
  refine (List.subperm_of_subset h.nodup hsub).perm_of_length_le ?_
  have hlength := h.remaining
  rw [hr, Nat.zero_add] at hlength
  rw [List.length_range]
  exact hlength.ge

/-- Peeling ends when nothing remains. -/
theorem Valid.run (hg : g.size = n) (h : p.Valid n) :
    (run g p).Valid n ∧ (run g p).remaining = 0 := by
  fun_induction Peeling.run g p with
  | case1 p q _ ih => exact ih h.peelSinks.peelSources
  | case2 p q _ hleft v hv ih =>
    have hq : q.Valid n := h.peelSinks.peelSources
    exact ih (hq.toLeft (pick?_eq_some hv).2.1)
  | case3 p q _ hleft hnone =>
    have hq : q.Valid n := h.peelSinks.peelSources
    obtain ⟨u, hu, hfree⟩ := hq.exists_not_placed hleft
    obtain ⟨w, hw⟩ := pick?_of_not_placed (hg ▸ hu) hfree
    rw [hnone] at hw
    cases hw
  | case4 p q _ hleft => exact ⟨h.peelSinks.peelSources, by omega⟩

end Peeling

/-- The nodes in the order that they are peeled into. -/
def sequence (n : Nat) (arcs : List Arc) : List Nat :=
  (Peeling.run (.ofArcs n arcs) (.start (.ofArcs n arcs))).sequence

/-- Where a node stands in the sequence. -/
def placeOf (n : Nat) (arcs : List Arc) (v : Nat) : Nat :=
  (note (Array.replicate n 0) (sequence n arcs)).getD v 0

theorem sequence_perm (n : Nat) (arcs : List Arc) :
    (sequence n arcs).Perm (List.range n) := by
  obtain ⟨hvalid, hremaining⟩ := (Peeling.valid_start (.ofArcs n arcs)).run rfl
  exact hvalid.perm hremaining

theorem getElem_placeOf {n : Nat} (arcs : List Arc) {v : Nat} (hv : v < n) :
    ∃ hi : placeOf n arcs v < (sequence n arcs).length,
      (sequence n arcs)[placeOf n arcs v] = v := by
  have hperm := sequence_perm n arcs
  obtain ⟨i, hi, hiv⟩ := List.mem_iff_getElem.mp (hperm.mem_iff.mpr (List.mem_range.mpr hv))
  have hplace : placeOf n arcs v = i := by
    refine getD_writes_of_mem ?_ ?_ (by rwa [Array.size_replicate]) 0
    · rw [List.zipIdx_map_fst]
      exact hperm.nodup_iff.mpr List.nodup_range
    · exact List.mem_zipIdx_iff_getElem?.mpr (List.getElem?_eq_some_iff.mpr ⟨hi, hiv⟩)
  simp only [hplace]
  exact ⟨hi, hiv⟩

theorem placeOf_ne {n : Nat} (arcs : List Arc) {u v : Nat} (hu : u < n) (hv : v < n)
    (h : u ≠ v) : placeOf n arcs u ≠ placeOf n arcs v := by
  intro hplace
  obtain ⟨_, hgetu⟩ := getElem_placeOf arcs hu
  obtain ⟨_, hgetv⟩ := getElem_placeOf arcs hv
  apply h
  rw [← hgetu, ← hgetv]
  simp only [hplace]

theorem placeOf_lt {n : Nat} {arcs : List Arc} {v : Nat} (hv : v < n) : placeOf n arcs v < n := by
  obtain ⟨hi, -⟩ := getElem_placeOf arcs hv
  rwa [(sequence_perm n arcs).length_eq, List.length_range] at hi

/-- The arcs that lead back in the sequence are turned around. -/
theorem feedback_eq (n : Nat) (arcs : List Arc) :
    feedback n arcs = arcs.map fun a =>
      decide (a.1 ≠ a.2) && decide (placeOf n arcs a.2 < placeOf n arcs a.1) := rfl

end Tiered.Layering
