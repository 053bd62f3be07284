import Tiered.Proofs.Layering.Sequence

/-!
# The counters of peeling are degrees

Peeling keeps two counters for each node and counts them down whenever it places a neighbour.

* `Counted`: the counters say how many arcs join a node to nodes that are not placed yet. This holds
  at first (`counted_start`) and is kept by placing any node that is left (`Counted.toLeft`,
  `Counted.toRight`), in the middle of a scan as well as between scans;
* `Counted.isSink_iff`, `Counted.isSource_iff`, `Counted.surplus_eq`: so what is read off the
  counters is true of the arcs that are left.
-/

namespace Tiered.Layering

/-- The arc is there, and it is no loop. -/
def Leads (arcs : List Arc) (u v : Nat) : Prop := (u, v) ∈ arcs ∧ u ≠ v

/-- The arcs that are no loops. -/
def proper (arcs : List Arc) : List Arc := arcs.filter fun a => a.1 ≠ a.2

theorem mem_proper {arcs : List Arc} {a : Arc} : a ∈ proper arcs ↔ Leads arcs a.1 a.2 := by
  simp [proper, Leads]

theorem getD_outgoing (arcs : List Arc) {n v : Nat} (hv : v < n) :
    (Network.ofArcs n arcs).outgoing.getD v [] =
      ((proper arcs).filter fun a => a.1 = v).map Prod.snd :=
  getD_successors _ hv

theorem getD_incoming (arcs : List Arc) {n v : Nat} (hv : v < n) :
    (Network.ofArcs n arcs).incoming.getD v [] =
      ((proper arcs).filter fun a => a.2 = v).map Prod.fst :=
  getD_predecessors _ _ hv

theorem size_outgoing (n : Nat) (arcs : List Arc) : (Network.ofArcs n arcs).outgoing.size = n :=
  size_successors _ _

theorem size_incoming (n : Nat) (arcs : List Arc) : (Network.ofArcs n arcs).incoming.size = n :=
  size_successors _ _

theorem countP_or_of_disjoint {α : Type} {p q : α → Bool} {xs : List α}
    (h : ∀ x ∈ xs, p x = true → q x = false) :
    xs.countP (fun x => p x || q x) = xs.countP p + xs.countP q := by
  induction xs with
  | nil => rfl
  | cons x rest ih =>
    have hx := h x List.mem_cons_self
    rw [List.countP_cons, List.countP_cons, List.countP_cons,
      ih fun y hy => h y (List.mem_cons_of_mem _ hy)]
    cases hp : p x with
    | true => simp [hx hp]; omega
    | false => simp; omega

theorem count_map_filter (as : List Arc) (key value : Arc → Nat) (v u : Nat) :
    ((as.filter fun a => key a = v).map value).count u =
      as.countP fun a => decide (key a = v) && decide (value a = u) := by
  rw [List.count_eq_countP, List.countP_map, List.countP_filter]
  refine List.countP_congr fun a _ => ?_
  simp [and_comm]

namespace Peeling

/-! ## Counting down -/

@[simp] theorem size_uncount (degrees : Array Int) (vs : List Nat) :
    (uncount degrees vs).size = degrees.size :=
  List.foldlRecOn (motive := fun ds : Array Int => ds.size = degrees.size) _ _ rfl
    fun _ h _ _ => Array.size_modify.trans h

theorem getD_uncount {degrees : Array Int} {v : Nat} (hv : v < degrees.size) (vs : List Nat) :
    (uncount degrees vs).getD v 0 = degrees.getD v 0 - vs.count v := by
  induction vs generalizing degrees with
  | nil => simp [uncount]
  | cons w rest ih =>
    have hrest : (uncount degrees (w :: rest)).getD v 0 =
        (degrees.modify w (· - 1)).getD v 0 - rest.count v := ih (by rwa [Array.size_modify])
    rw [hrest, getD_modify, List.count_cons]
    by_cases hw : w = v
    · rw [if_pos ⟨hw, hv⟩, if_pos (by simpa using hw)]
      omega
    · rw [if_neg fun h => hw h.1, if_neg (by simpa using hw)]
      omega

section Place

variable {g : Network} {arcs : List Arc} {n : Nat} {p : Peeling} {u v w : Nat}

theorem not_isPlaced_place :
    (p.place g v).isPlaced w = false ↔ w ≠ v ∧ p.isPlaced w = false := by
  have hmarks : (p.place g v).isPlaced w = true ↔ w = v ∨ p.isPlaced w = true :=
    getD_setIfInBounds_true
  rw [← Bool.not_eq_true, ← Bool.not_eq_true, hmarks, not_or]

/-- Arcs to what is left lead to the node that is placed next or to what is left after it. -/
theorem countP_place (hv : p.isPlaced v = false) (tip : Arc → Nat) (test : Arc → Bool)
    (as : List Arc) : as.countP (fun a => !p.isPlaced (tip a) && test a) =
      as.countP (fun a => !(p.place g v).isPlaced (tip a) && test a) +
        as.countP fun a => decide (tip a = v) && test a := by
  rw [← countP_or_of_disjoint]
  · refine List.countP_congr fun a _ => ?_
    simp only [Bool.and_eq_true, Bool.or_eq_true, Bool.not_eq_true', decide_eq_true_eq,
      not_isPlaced_place]
    by_cases ha : tip a = v
    · simp [ha, hv]
    · simp [ha]
  · intro a _ hleft
    simp only [Bool.and_eq_true, Bool.not_eq_true', not_isPlaced_place] at hleft
    rw [decide_eq_false hleft.1.1, Bool.false_and]

/-- The counters of each node are how many arcs join it to nodes that are not placed yet. -/
structure Counted (n : Nat) (arcs : List Arc) (p : Peeling) : Prop extends Valid n p where
  sizes : p.outDegree.size = n ∧ p.inDegree.size = n
  outDegree : ∀ v < n, p.outDegree.getD v 0 =
    ((proper arcs).countP fun a => !p.isPlaced a.2 && decide (a.1 = v) : Nat)
  inDegree : ∀ v < n, p.inDegree.getD v 0 =
    ((proper arcs).countP fun a => !p.isPlaced a.1 && decide (a.2 = v) : Nat)

theorem counted_start (hb : ∀ a ∈ arcs, a.1 < n ∧ a.2 < n) :
    (start (.ofArcs n arcs)).Counted n arcs := by
  have hfree : ∀ w < n, (start (.ofArcs n arcs)).isPlaced w = false := fun w hw => by
    have hsize : w < (Network.ofArcs n arcs).size := hw
    simp [isPlaced, start, Array.getD_eq_getD_getElem?, hsize]
  refine { valid_start (.ofArcs n arcs) with sizes := ⟨?_, ?_⟩, outDegree := ?_, inDegree := ?_ }
  · rw [start, Array.size_map, size_outgoing]
  · rw [start, Array.size_map, size_incoming]
  · intro v hv
    have hlength : (start (.ofArcs n arcs)).outDegree.getD v 0 =
        ((Network.ofArcs n arcs).outgoing.getD v []).length := by
      simp [start, Array.getD_eq_getD_getElem?, size_outgoing, hv]
    rw [hlength, getD_outgoing arcs hv, List.length_map, ← List.countP_eq_length_filter,
      Int.natCast_inj]
    refine List.countP_congr fun a ha => ?_
    simp [hfree _ (hb a (mem_proper.mp ha).1).2]
  · intro v hv
    have hlength : (start (.ofArcs n arcs)).inDegree.getD v 0 =
        ((Network.ofArcs n arcs).incoming.getD v []).length := by
      simp [start, Array.getD_eq_getD_getElem?, size_incoming, hv]
    rw [hlength, getD_incoming arcs hv, List.length_map, ← List.countP_eq_length_filter,
      Int.natCast_inj]
    refine List.countP_congr fun a ha => ?_
    simp [hfree _ (hb a (mem_proper.mp ha).1).1]

/-- Placing a node counts down once for each of its arcs, at their other ends. -/
theorem Counted.grow (h : p.Counted n arcs) (hv : p.isPlaced v = false) {q : Peeling}
    (hq : q.Valid n) (hplaced : q.placed = (p.place (.ofArcs n arcs) v).placed)
    (hout : q.outDegree = (p.place (.ofArcs n arcs) v).outDegree)
    (hin : q.inDegree = (p.place (.ofArcs n arcs) v).inDegree) : q.Counted n arcs := by
  have hvn : v < n := h.lt hv
  have hmark : ∀ w, q.isPlaced w = (p.place (.ofArcs n arcs) v).isPlaced w := fun w => by
    rw [isPlaced, isPlaced, hplaced]
  refine { hq with sizes := ⟨?_, ?_⟩, outDegree := ?_, inDegree := ?_ }
  · rw [hout, place, size_uncount]
    exact h.sizes.1
  · rw [hin, place, size_uncount]
    exact h.sizes.2
  · intro u hu
    have hsplit := countP_place (g := .ofArcs n arcs) hv Prod.snd
      (fun a => decide (a.1 = u)) (proper arcs)
    rw [hout, place, getD_uncount (h.sizes.1.symm ▸ hu), h.outDegree u hu, getD_incoming arcs hvn,
      count_map_filter]
    simp only [hmark]
    omega
  · intro u hu
    have hsplit := countP_place (g := .ofArcs n arcs) hv Prod.fst
      (fun a => decide (a.2 = u)) (proper arcs)
    rw [hin, place, getD_uncount (h.sizes.2.symm ▸ hu), h.inDegree u hu, getD_outgoing arcs hvn,
      count_map_filter]
    simp only [hmark]
    omega

theorem Counted.toLeft (h : p.Counted n arcs) (hv : p.isPlaced v = false) :
    (p.toLeft (.ofArcs n arcs) v).Counted n arcs :=
  h.grow hv (h.toValid.toLeft hv) rfl rfl rfl

theorem Counted.toRight (h : p.Counted n arcs) (hv : p.isPlaced v = false) :
    (p.toRight (.ofArcs n arcs) v).Counted n arcs :=
  h.grow hv (h.toValid.toRight hv) rfl rfl rfl

theorem Counted.peelSinks (h : p.Counted n arcs) :
    (peelSinks (.ofArcs n arcs) p).Counted n arcs := by
  refine List.foldlRecOn (motive := fun q : Peeling => q.Counted n arcs) _ _ h ?_
  intro q hq v _
  split
  · rename_i hsink
    exact hq.toRight (isPlaced_of_isSink hsink)
  · exact hq

theorem Counted.peelSources (h : p.Counted n arcs) :
    (peelSources (.ofArcs n arcs) p).Counted n arcs := by
  refine List.foldlRecOn (motive := fun q : Peeling => q.Counted n arcs) _ _ h ?_
  intro q hq v _
  split
  · rename_i hsource
    exact hq.toLeft (isPlaced_of_isSource hsource)
  · exact hq

/-! ## What the counters say -/

theorem countP_eq_zero_cast {as : List Arc} {test : Arc → Bool} :
    ((as.countP test : Nat) : Int) = 0 ↔ ∀ a ∈ as, test a = false := by
  rw [Int.natCast_eq_zero, List.countP_eq_zero]
  simp

theorem Counted.isSink_iff (h : p.Counted n arcs) (hv : v < n) :
    p.isSink v = true ↔ p.isPlaced v = false ∧ ∀ w, Leads arcs v w → p.isPlaced w = true := by
  rw [isSink, h.outDegree v hv, Bool.and_eq_true, Bool.not_eq_true', beq_iff_eq,
    countP_eq_zero_cast]
  refine and_congr_right' ⟨fun hnone w hlead => ?_, fun hall a ha => ?_⟩
  · simpa using hnone (v, w) (mem_proper.mpr hlead)
  · have hlead := mem_proper.mp ha
    by_cases hav : a.1 = v
    · simp [hall a.2 (hav ▸ hlead)]
    · simp [hav]

theorem Counted.isSource_iff (h : p.Counted n arcs) (hv : v < n) :
    p.isSource v = true ↔ p.isPlaced v = false ∧ ∀ u, Leads arcs u v → p.isPlaced u = true := by
  rw [isSource, h.inDegree v hv, Bool.and_eq_true, Bool.not_eq_true', beq_iff_eq,
    countP_eq_zero_cast]
  refine and_congr_right' ⟨fun hnone u hlead => ?_, fun hall a ha => ?_⟩
  · simpa using hnone (u, v) (mem_proper.mpr hlead)
  · have hlead := mem_proper.mp ha
    by_cases hav : a.2 = v
    · simp [hall a.1 (hav ▸ hlead)]
    · simp [hav]

theorem Counted.surplus_eq (h : p.Counted n arcs) (hv : v < n) : p.surplus v =
    ((proper arcs).countP fun a => !p.isPlaced a.2 && decide (a.1 = v) : Nat) -
      ((proper arcs).countP fun a => !p.isPlaced a.1 && decide (a.2 = v) : Nat) := by
  rw [surplus, h.outDegree v hv, h.inDegree v hv]

end Place
end Peeling
end Tiered.Layering
