import Mathlib.Algebra.Order.Field.Rat
import Mathlib.Algebra.Order.Field.Basic
import Mathlib.Order.Interval.Set.Basic
import Tiered.Proofs.Layering.Counting
import Tiered.Proofs.Layering.Ordering

/-!
# Sorting a layer by medians

* `before_mergeSort`: a stable sort by medians is a sort by medians and slots;
* `getElem?_refill`, `moved_refill`: the nodes without a median stay where they are, and the slots
  of the others hold the sorted nodes from left to right;
* `weighed_between`: the mean of two places, by any weights, is between them;
* `checkedMedian?`: the median as it is made, in which an access out of range, a difference below
  zero or a quotient by zero would be the end; `checkedMedian?_eq` shows that ascending places
  always have their median;
* `swept_sweepFrom`: this for each layer of a sweep, with the places noted so far.
-/

namespace Tiered.Layering

/-! ## Nodes that move -/

/-- A node that has a median, and its slot in the layer. -/
structure Movable where
  median : Rat
  slot : Nat
  node : Nat

/-- The order of the nodes that move: by their medians, and then by their slots. -/
def Movable.Before (a b : Movable) : Prop :=
  a.median < b.median ∨ a.median = b.median ∧ a.slot < b.slot

/-- The nodes of a layer that have a median. -/
def movables (layer : List Nat) (medians : List (Option Rat)) : List Movable :=
  (layer.zip medians).zipIdx.filterMap fun (s, slot) => s.2.map fun m => ⟨m, slot, s.1⟩

theorem ascending_movables (layer : List Nat) (medians : List (Option Rat)) :
    (movables layer medians).Pairwise fun a b => a.slot < b.slot := by
  have hslots : (layer.zip medians).zipIdx.Pairwise fun s t => s.2 < t.2 := by
    rw [← List.pairwise_map, List.zipIdx_map_snd]
    exact List.pairwise_lt_range'
  refine List.pairwise_filterMap.mpr (hslots.imp fun {s t} hlt a ha b hb => ?_)
  obtain ⟨_, -, rfl⟩ := Option.map_eq_some_iff.mp ha
  obtain ⟨_, -, rfl⟩ := Option.map_eq_some_iff.mp hb
  exact hlt

/-- What the sort compares, which is the medians alone. -/
def Movable.le (a b : Movable) : Bool := decide (a.median ≤ b.median)

theorem Movable.le_trans {a b c : Movable} (hab : a.le b = true) (hbc : b.le c = true) :
    a.le c = true :=
  decide_eq_true ((of_decide_eq_true hab).trans (of_decide_eq_true hbc))

theorem Movable.le_total (a b : Movable) : (a.le b || b.le a) = true := by
  simpa [Movable.le] using Rat.le_total (a := a.median) (b := b.median)

/-- Sorting is stable, so it sorts by slots as well. -/
theorem before_mergeSort {ms : List Movable} (h : ms.Pairwise fun a b => a.slot < b.slot) :
    (ms.mergeSort Movable.le).Pairwise Movable.Before := by
  rw [← List.mergeSort_zipIdx, List.pairwise_map]
  have hsorted : (ms.zipIdx.mergeSort (List.zipIdxLE Movable.le)).Pairwise
      fun s t => List.zipIdxLE Movable.le s t = true := by
    apply List.pairwise_mergeSort
    · exact List.zipIdxLE_trans fun _ _ _ => Movable.le_trans
    · exact List.zipIdxLE_total Movable.le_total
  have hslots : (ms.zipIdx.mergeSort (List.zipIdxLE Movable.le)).Pairwise
      fun s t => s.2 ≠ t.2 := by
    rw [← List.pairwise_map]
    apply ((List.mergeSort_perm ms.zipIdx _).map Prod.snd).nodup_iff.mpr
    rw [List.zipIdx_map_snd]
    exact List.nodup_range'
  refine (hsorted.and hslots).imp_of_mem fun {s t} hs ht ⟨hle, hne⟩ => ?_
  have hs := List.mem_zipIdx_iff_getElem?.mp (List.mem_mergeSort.mp hs)
  have ht := List.mem_zipIdx_iff_getElem?.mp (List.mem_mergeSort.mp ht)
  by_cases hback : t.1.median ≤ s.1.median
  · have hat : s.1.median ≤ t.1.median ∧ s.2 ≤ t.2 := by
      simpa [List.zipIdxLE, Movable.le, hback] using hle
    obtain ⟨his, hs⟩ := List.getElem?_eq_some_iff.mp hs
    obtain ⟨hit, ht⟩ := List.getElem?_eq_some_iff.mp ht
    have hslot := List.pairwise_iff_getElem.mp h s.2 t.2 his hit (by omega)
    rw [hs, ht] at hslot
    exact Or.inr ⟨le_antisymm hat.1 hback, hslot⟩
  · exact Or.inl (not_le.mp hback)

/-! ## Filling the slots -/

/-- The nodes that stand, from left to right, in the slots of the nodes with a median. -/
def moved (nodes : List Nat) (medians : List (Option Rat)) : List Nat :=
  ((nodes.zip medians).filter fun s => s.2.isSome).map Prod.fst

theorem getElem?_refill {slots : List (Nat × Option Rat)} {i v : Nat}
    (h : slots[i]? = some (v, none)) (sorted : List Nat) :
    (refill slots sorted)[i]? = some v := by
  induction slots generalizing sorted i with
  | nil => cases h
  | cons slot rest ih =>
    obtain ⟨w, m⟩ := slot
    cases i with
    | zero =>
      obtain ⟨rfl, rfl⟩ := Prod.mk.inj (Option.some.inj h)
      rfl
    | succ i =>
      rw [List.getElem?_cons_succ] at h
      cases m with
      | none => exact ih h sorted
      | some m =>
        cases sorted with
        | nil => exact ih h []
        | cons u sorted => exact ih h sorted

/-- The sorted nodes and the slots for them are used up together. -/
theorem moved_refill (slots : List (Nat × Option Rat)) (sorted : List Nat)
    (h : (slots.filter fun s => s.2.isSome).length = sorted.length) :
    moved (refill slots sorted) (slots.map Prod.snd) = sorted := by
  induction slots generalizing sorted with
  | nil => exact (List.eq_nil_of_length_eq_zero h.symm).symm
  | cons slot rest ih =>
    obtain ⟨v, m⟩ := slot
    cases m with
    | none => exact ih sorted h
    | some m =>
      cases sorted with
      | nil => exact absurd h (by simp)
      | cons w sorted =>
        have hrest : (rest.filter fun s => s.2.isSome).length = sorted.length := by
          simpa using h
        exact congrArg (w :: ·) (ih sorted hrest)

/-- The slots say no more of a node that moves than its place in the list does. -/
theorem map_movables (layer : List Nat) (medians : List (Option Rat)) :
    (movables layer medians).map (fun a => (a.node, a.median)) =
      (layer.zip medians).filterMap fun (v, m) => m.map (v, ·) := by
  unfold movables
  rw [List.map_filterMap]
  conv_rhs => rw [← List.zipIdx_map_fst 0 (layer.zip medians), List.filterMap_map]
  apply List.filterMap_congr
  intro s _
  simp only [Option.map_map, Function.comp_apply]
  rfl

theorem length_movables (layer : List Nat) (medians : List (Option Rat)) :
    (movables layer medians).length =
      ((layer.zip medians).filter fun s => s.2.isSome).length := by
  have hlength := congrArg List.length (map_movables layer medians)
  rw [List.length_map, List.length_filterMap_eq_countP] at hlength
  simpa [List.countP_eq_length_filter] using hlength

theorem reorder_eq (layer : List Nat) (medians : List (Option Rat)) :
    reorder layer medians = refill (layer.zip medians)
      (((movables layer medians).mergeSort Movable.le).map Movable.node) := by
  have hsorted : ((movables layer medians).mergeSort Movable.le).map
      (fun a => (a.node, a.median)) =
        ((movables layer medians).map fun a => (a.node, a.median)).mergeSort
          fun a b => a.2 ≤ b.2 :=
    List.map_mergeSort fun a _ b _ => rfl
  unfold reorder
  dsimp only
  rw [← map_movables, ← hsorted, List.map_map]
  rfl

/-- What sorting by medians makes of a layer. -/
structure Reordered (layer : List Nat) (medians : List (Option Rat)) (result : List Nat) :
    Prop where
  perm : result.Perm layer
  kept : ∀ i : Nat, medians[i]? = some none → result[i]? = layer[i]?
  sorted : ∃ order : List Movable, order.Perm (movables layer medians) ∧
    order.Pairwise Movable.Before ∧ moved result medians = order.map Movable.node

theorem reordered_reorder {layer : List Nat} {medians : List (Option Rat)}
    (h : medians.length = layer.length) :
    Reordered layer medians (reorder layer medians) := by
  refine ⟨reorder_perm h, fun i hnone => ?_, ?_⟩
  · obtain ⟨hi, -⟩ := List.getElem?_eq_some_iff.mp hnone
    have hlayer : layer[i]? = some layer[i] := List.getElem?_eq_getElem (h ▸ hi)
    rw [hlayer]
    exact getElem?_refill (List.getElem?_zip_eq_some.mpr ⟨hlayer, hnone⟩) _
  · refine ⟨_, List.mergeSort_perm _ _, before_mergeSort (ascending_movables layer medians), ?_⟩
    have hmedians : (layer.zip medians).map Prod.snd = medians :=
      List.map_snd_zip (Nat.le_of_eq h)
    have hmoved := moved_refill (layer.zip medians)
      (((movables layer medians).mergeSort Movable.le).map Movable.node)
      (by rw [List.length_map, List.length_mergeSort, length_movables])
    rwa [hmedians, ← reorder_eq] at hmoved

/-! ## The median -/

theorem getD_le_getD {ps : List Nat} (h : ps.Pairwise (· ≤ ·)) {i j : Nat} (hij : i ≤ j)
    (hj : j < ps.length) : ps.getD i 0 ≤ ps.getD j 0 := by
  rw [List.getD_eq_getElem _ _ hj, List.getD_eq_getElem _ _ (hij.trans_lt hj)]
  exact h.sortedLE.getElem_le_getElem_of_le hij

/-- A quotient, unless it is by zero. -/
def over? (x y : Rat) : Option Rat := if y = 0 then none else some (x / y)

theorem over?_eq {y : Rat} (h : y ≠ 0) (x : Rat) : over? x y = some (x / y) := if_neg h

/-- The median as it is made, in which an access out of range, a difference below zero or a quotient
by zero would be the end. -/
def checkedMedian? (ps : List Nat) : Option (Option Rat) :=
  let n := ps.length
  let m := n / 2
  if n = 0 then some none
  else if n % 2 = 1 then do
    let middle ← ps[m]?
    return some middle
  else if n = 2 then do
    let low ← ps[0]?
    let high ← ps[1]?
    return some (← over? (low + high : Nat) 2)
  else do
    let low ← ps[← minus? m 1]?
    let high ← ps[m]?
    let left ← minus? low (← ps[0]?)
    let right ← minus? (← ps[← minus? n 1]?) high
    if left + right = 0 then return some (← over? (low + high : Nat) 2)
    else return some (← over? (low * right + high * left : Nat) (left + right : Nat))

/-- The places weighed against each other stay on their sides. -/
theorem weighed_between {low high : Nat} (h : low ≤ high) {left right : Nat}
    (hpos : 0 < left + right) :
    ((low * right + high * left : Nat) / (left + right : Nat) : Rat) ∈
      Set.Icc (low : Rat) high := by
  have hcast : (0 : Rat) < (left + right : Nat) := Nat.cast_pos.mpr hpos
  have hleft : low * left ≤ high * left := Nat.mul_le_mul_right left h
  have hright : low * right ≤ high * right := Nat.mul_le_mul_right right h
  constructor
  · rw [le_div_iff₀ hcast, ← Nat.cast_mul, Nat.cast_le, Nat.mul_add]
    omega
  · rw [div_le_iff₀ hcast, ← Nat.cast_mul, Nat.cast_le, Nat.mul_add]
    omega

theorem midpoint_between {low high : Nat} (h : low ≤ high) :
    ((low + high : Nat) / 2 : Rat) ∈ Set.Icc (low : Rat) high := by
  have hweighed := weighed_between h (show 0 < 1 + 1 by decide)
  simpa using hweighed

theorem median?_between {ps : List Nat} (h : ps.Pairwise (· ≤ ·)) (hne : ps ≠ []) :
    ∃ low high x, ps[(ps.length - 1) / 2]? = some low ∧ ps[ps.length / 2]? = some high ∧
      median? ps = some x ∧ x ∈ Set.Icc (low : Rat) high := by
  have hpos : 0 < ps.length := List.length_pos_of_ne_nil hne
  have hlow : ps[(ps.length - 1) / 2]? = some (ps.getD ((ps.length - 1) / 2) 0) :=
    getElem?_eq_getD (by omega) 0
  have hhigh : ps[ps.length / 2]? = some (ps.getD (ps.length / 2) 0) :=
    getElem?_eq_getD (by omega) 0
  have hle : ps.getD ((ps.length - 1) / 2) 0 ≤ ps.getD (ps.length / 2) 0 :=
    getD_le_getD h (by omega) (by omega)
  suffices hx : ∃ x, median? ps = some x ∧
      x ∈ Set.Icc (ps.getD ((ps.length - 1) / 2) 0 : Rat) (ps.getD (ps.length / 2) 0) by
    obtain ⟨x, hx⟩ := hx
    exact ⟨_, _, x, hlow, hhigh, hx⟩
  simp only [median?, if_neg hpos.ne']
  by_cases hodd : ps.length % 2 = 1
  · rw [if_pos hodd]
    have hsame : (ps.length - 1) / 2 = ps.length / 2 := by omega
    rw [hsame]
    exact ⟨_, rfl, Set.left_mem_Icc.mpr le_rfl⟩
  · rw [if_neg hodd]
    by_cases htwo : ps.length = 2
    · rw [if_pos htwo]
      rw [htwo] at hle ⊢
      exact ⟨_, rfl, midpoint_between hle⟩
    · rw [if_neg htwo]
      have hlow : (ps.length - 1) / 2 = ps.length / 2 - 1 := by omega
      rw [hlow] at hle ⊢
      split
      · exact ⟨_, rfl, midpoint_between hle⟩
      · rename_i hspread
        exact ⟨_, rfl, weighed_between hle (Nat.pos_of_ne_zero hspread)⟩

theorem checkedMedian?_eq {ps : List Nat} (h : ps.Pairwise (· ≤ ·)) :
    checkedMedian? ps = some (median? ps) := by
  simp only [checkedMedian?, median?]
  by_cases hzero : ps.length = 0
  · rw [if_pos hzero, if_pos hzero]
  · rw [if_neg hzero, if_neg hzero]
    by_cases hodd : ps.length % 2 = 1
    · rw [if_pos hodd, if_pos hodd, getElem?_eq_getD (by omega) 0]
      rfl
    · rw [if_neg hodd, if_neg hodd]
      by_cases htwo : ps.length = 2
      · rw [if_pos htwo, if_pos htwo, getElem?_eq_getD (by omega) 0, getElem?_eq_getD (by omega) 0]
        rfl
      · have hfirst : ps[0]? = some (ps.getD 0 0) := getElem?_eq_getD (by omega) 0
        have hlow : ps[ps.length / 2 - 1]? = some (ps.getD (ps.length / 2 - 1) 0) :=
          getElem?_eq_getD (by omega) 0
        have hhigh : ps[ps.length / 2]? = some (ps.getD (ps.length / 2) 0) :=
          getElem?_eq_getD (by omega) 0
        have hlast : ps[ps.length - 1]? = some (ps.getD (ps.length - 1) 0) :=
          getElem?_eq_getD (by omega) 0
        have hbelow := minus?_eq (b := 1) (a := ps.length / 2) (by omega)
        have hend := minus?_eq (b := 1) (a := ps.length) (by omega)
        have hleft := minus?_eq (getD_le_getD h (Nat.zero_le (ps.length / 2 - 1)) (by omega))
        have hright := minus?_eq
          (getD_le_getD h (i := ps.length / 2) (j := ps.length - 1) (by omega) (by omega))
        rw [if_neg htwo, if_neg htwo]
        simp only [hfirst, hlow, hhigh, hlast, hbelow, hend, hleft, hright, Option.bind_eq_bind,
          Option.bind_some]
        split
        · rfl
        · rename_i hspread
          rw [over?_eq (Nat.cast_ne_zero.mpr hspread)]
          rfl

/-! ## Sweeps -/

/-- One layer after the other is sorted by the medians of the places of its nodes' neighbours, which
all exist. The places are those given at first, and in the layers sorted so far the new ones. -/
inductive Swept (neighbours : Nat → List Nat) : Array Nat → Layers → Layers → Prop
  | nil (places : Array Nat) : Swept neighbours places [] []
  | cons {places : Array Nat} {layer result : List Nat} {rest results : Layers}
      {medians : List (Option Rat)}
      (hmedians : List.Forall₂ (fun v m =>
        checkedMedian? ((neighbours v).map (places.getD · 0)).mergeSort = some m) layer medians)
      (hsorted : Reordered layer medians result)
      (hrest : Swept neighbours (note places result) rest results) :
      Swept neighbours places (layer :: rest) (result :: results)

theorem swept_sweepFrom (neighbours : Nat → List Nat) (places : Array Nat) (layers : Layers) :
    Swept neighbours places layers (Layered.sweepFrom neighbours places layers) := by
  induction layers generalizing places with
  | nil => exact .nil places
  | cons layer rest ih =>
    refine .cons ?_ (reordered_reorder (List.length_map _)) (ih _)
    rw [List.forall₂_map_right_iff, List.forall₂_same]
    intro v _
    apply checkedMedian?_eq
    exact List.pairwise_mergeSort' (· ≤ ·) _

/-- **Layers are sorted by medians that always exist.** The nodes of a layer that have a median are
sorted among their slots, equal ones in the order they had. The median of ascending places is
computed without a failure, and is between the two in the middle. A sweep sorts layer after layer in
this way, each by the places that its neighbours have by then. -/
theorem sorted_by_medians :
    (∀ (layer : List Nat) (medians : List (Option Rat)), medians.length = layer.length →
      Reordered layer medians (reorder layer medians)) ∧
    (∀ ps : List Nat, ps.Pairwise (· ≤ ·) →
      checkedMedian? ps = some (median? ps) ∧
      (ps ≠ [] → ∃ low high x, ps[(ps.length - 1) / 2]? = some low ∧
        ps[ps.length / 2]? = some high ∧ median? ps = some x ∧ x ∈ Set.Icc (low : Rat) high)) ∧
    ∀ (neighbours : Nat → List Nat) (places : Array Nat) (layers : Layers),
      Swept neighbours places layers (Layered.sweepFrom neighbours places layers) := by
  refine ⟨fun layer medians h => reordered_reorder h, fun ps h => ⟨checkedMedian?_eq h, ?_⟩,
    swept_sweepFrom⟩
  exact median?_between h

theorem sorted_by_medians_several :
    Reordered [10, 11, 12, 13] [some 5, none, some 1, some 1] [12, 11, 13, 10] ∧
    checkedMedian? [0, 1, 2, 9] = some (some (9 / 8)) ∧
      ∃ x : Rat, median? [0, 1, 2, 9] = some x ∧ x ∈ Set.Icc ((1 : Nat) : Rat) (2 : Nat) := by
  have hreorder : reorder [10, 11, 12, 13] [some 5, none, some 1, some 1] = [12, 11, 13, 10] := by
    simp [reorder, refill, List.mergeSort]
  have hmedian : median? [0, 1, 2, 9] = some (9 / 8) := by decide +kernel
  obtain ⟨hlayers, hplaces, -⟩ := sorted_by_medians
  obtain ⟨hchecked, hbetween⟩ := hplaces [0, 1, 2, 9] (by decide)
  obtain ⟨low, high, x, hlow, hhigh, hx⟩ := hbetween (List.cons_ne_nil _ _)
  cases hlow
  cases hhigh
  exact ⟨hreorder ▸ hlayers _ _ rfl, hmedian ▸ hchecked, x, hx⟩

end Tiered.Layering
