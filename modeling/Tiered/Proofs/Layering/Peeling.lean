import Mathlib.Algebra.Order.BigOperators.Group.List
import Mathlib.Algebra.Order.Ring.Nat
import Tiered.Proofs.Layering.Feedback

/-!
# What leads back in the sequence

Peeling places one node after the other (`Step`, `steps_run`), which keeps the counters right
(`Counted.of_steps`), and puts what is left between the two ends of the sequence (`Peels`,
`peels_run`). Sinks and sources bring no arc that leads back, so that all of them
lead to nodes that were picked:

* `Peels.back_le_ahead`: a node is picked with no more arcs coming in than going out, so at most
  half of all arcs lead back;
* `Peels.exists_pick`: the start of an arc that leads back was left when its end was picked, and
  there were no sinks and no sources then;
* `Stuck.exists_cycle_behind`, `Stuck.exists_cycle_ahead`: so there was a cycle on either side.
-/

namespace Tiered.Layering

/-! ## Arcs along a list -/

/-- How many arcs lead from a node of the list to a later one. -/
def ahead (arcs : List Arc) (vs : List Nat) : Nat :=
  arcs.countP fun a => decide ([a.1, a.2].Sublist vs)

/-- How many arcs lead from a node of the list to an earlier one. -/
def back (arcs : List Arc) (vs : List Nat) : Nat :=
  arcs.countP fun a => decide ([a.2, a.1].Sublist vs)

section Pairs

variable {a b v : Nat} {vs : List Nat}

theorem pair_sublist_cons : [a, b].Sublist (v :: vs) ↔ [a, b].Sublist vs ∨ a = v ∧ b ∈ vs := by
  simp [List.sublist_cons_iff]

theorem pair_sublist_concat :
    [a, b].Sublist (vs ++ [v]) ↔ [a, b].Sublist vs ∨ a ∈ vs ∧ b = v := by
  have hreverse : ∀ ws : List Nat, [a, b].Sublist ws ↔ [b, a].Sublist ws.reverse :=
    fun _ => List.reverse_sublist.symm
  rw [hreverse, hreverse vs, List.reverse_append, List.reverse_singleton, List.singleton_append,
    pair_sublist_cons, List.mem_reverse, and_comm]

/-- Two nodes of a list stand in one order or in the other. -/
theorem pair_sublist_or (ha : a ∈ vs) (hb : b ∈ vs) (hne : a ≠ b) :
    [a, b].Sublist vs ∨ [b, a].Sublist vs := by
  induction vs with
  | nil => cases ha
  | cons w rest ih =>
    simp only [pair_sublist_cons]
    by_cases haw : a = w
    · have hbr : b ∈ rest := (List.mem_cons.mp hb).resolve_left fun h => hne (haw.trans h.symm)
      exact .inl (.inr ⟨haw, hbr⟩)
    · have har : a ∈ rest := (List.mem_cons.mp ha).resolve_left haw
      by_cases hbw : b = w
      · exact .inr (.inr ⟨hbw, har⟩)
      · exact (ih har ((List.mem_cons.mp hb).resolve_left hbw)).imp .inl .inl

end Pairs

section Steps

variable (arcs : List Arc) {v : Nat} {vs : List Nat} (hv : v ∉ vs)

include hv

theorem ahead_cons : ahead arcs (v :: vs) =
    ahead arcs vs + arcs.countP fun a => decide (a.1 = v) && decide (a.2 ∈ vs) := by
  simp only [ahead, pair_sublist_cons, Bool.decide_or, Bool.decide_and]
  refine countP_or_of_disjoint fun a _ hlater => ?_
  rw [decide_eq_true_eq] at hlater
  have hfirst : a.1 ≠ v := fun h => hv (h ▸ hlater.subset List.mem_cons_self)
  rw [decide_eq_false hfirst, Bool.false_and]

theorem back_cons : back arcs (v :: vs) =
    back arcs vs + arcs.countP fun a => decide (a.2 = v) && decide (a.1 ∈ vs) := by
  have hswap := ahead_cons (arcs.map Prod.swap) hv
  simp only [ahead, List.countP_map] at hswap
  exact hswap

end Steps

/-! ## What remains to be placed -/

namespace Peeling

/-- No node is a sink and none is a source. -/
structure Stuck (p : Peeling) : Prop where
  sink : ∀ v, p.isSink v = false
  source : ∀ v, p.isSource v = false

/-- The nodes that are left come to stand between the two ends in this order. -/
inductive Peels (g : Network) : Peeling → List Nat → Prop
  | done {p : Peeling} : p.remaining = 0 → Peels g p []
  | sink {p : Peeling} {v : Nat} {vs : List Nat} :
      p.isSink v = true → Peels g (p.toRight g v) vs → Peels g p (vs ++ [v])
  | source {p : Peeling} {v : Nat} {vs : List Nat} :
      p.isSource v = true → Peels g (p.toLeft g v) vs → Peels g p (v :: vs)
  | pick {p : Peeling} {v : Nat} {vs : List Nat} :
      Stuck p → pick? g p = some v → Peels g (p.toLeft g v) vs → Peels g p (v :: vs)

/-- One node is placed: a sink, a source, or if there are neither the one that is picked. -/
inductive Step (g : Network) : Peeling → Peeling → Prop
  | sink {p : Peeling} {v : Nat} : p.isSink v = true → Step g p (p.toRight g v)
  | source {p : Peeling} {v : Nat} : p.isSource v = true → Step g p (p.toLeft g v)
  | pick {p : Peeling} {v : Nat} : Stuck p → pick? g p = some v → Step g p (p.toLeft g v)

/-- From one peeling to another, node by node. -/
abbrev Steps (g : Network) : Peeling → Peeling → Prop := Relation.ReflTransGen (Step g)

section Run

variable {g : Network} {n : Nat} {p q : Peeling} {v : Nat}

theorem steps_peelSinks (g : Network) (p : Peeling) : Steps g p (peelSinks g p) := by
  refine List.foldlRecOn (motive := fun q : Peeling => Steps g p q) _ _ .refl ?_
  intro q hq v _
  split
  · rename_i hsink
    exact hq.tail (.sink hsink)
  · exact hq

theorem steps_peelSources (g : Network) (p : Peeling) : Steps g p (peelSources g p) := by
  refine List.foldlRecOn (motive := fun q : Peeling => Steps g p q) _ _ .refl ?_
  intro q hq v _
  split
  · rename_i hsource
    exact hq.tail (.source hsource)
  · exact hq

/-- A look at every node changes nothing if no node passes its test. -/
theorem foldl_eq_self {test : Peeling → Nat → Bool} (move : Peeling → Nat → Peeling)
    (hnone : ∀ v, test p v = false) (vs : List Nat) :
    vs.foldl (fun q v => if test q v then move q v else q) p = p := by
  induction vs with
  | nil => rfl
  | cons v rest ih =>
    rw [List.foldl_cons, hnone v, if_neg Bool.false_ne_true]
    exact ih

/-- A round that places nothing finds no sink and no source, and so leaves all as it is. -/
theorem stuck_of_round (hg : g.size = n) (h : p.Valid n)
    (hround : ¬ (peelSources g (peelSinks g p)).remaining < p.remaining)
    (hr : 0 < (peelSources g (peelSinks g p)).remaining) :
    Stuck p ∧ peelSources g (peelSinks g p) = p := by
  have hsources := remaining_peelSources_le g (peelSinks g p)
  have hsinks := remaining_peelSinks_le g p
  have hpos : 0 < p.remaining := by omega
  have hsink : ∀ v, p.isSink v = false := by
    intro v
    apply Bool.eq_false_iff.mpr
    intro hv
    have hlt := h.lt (isPlaced_of_isSink hv)
    have := remaining_peelSinks_lt hpos (hg ▸ hlt) hv
    omega
  have hsame : peelSinks g p = p := foldl_eq_self (toRight g) hsink _
  rw [hsame] at hround ⊢
  have hsource : ∀ v, p.isSource v = false := by
    intro v
    apply Bool.eq_false_iff.mpr
    intro hv
    have hlt := h.lt (isPlaced_of_isSource hv)
    exact hround (remaining_peelSources_lt hpos (hg ▸ hlt) hv)
  exact ⟨⟨hsink, hsource⟩, foldl_eq_self (toLeft g) hsource _⟩

/-- All that a run does is to place one node after the other. -/
theorem steps_run (hg : g.size = n) (h : p.Valid n) : Steps g p (run g p) := by
  fun_induction Peeling.run g p with
  | case1 p q _ ih =>
    have hround := (steps_peelSinks g p).trans (steps_peelSources g _)
    exact hround.trans (ih h.peelSinks.peelSources)
  | case2 p q hround hleft v hv ih =>
    have hq : q.Valid n := h.peelSinks.peelSources
    obtain ⟨hstuck, hsame⟩ := stuck_of_round hg h hround hleft
    change q = p at hsame
    have hnext := ih (hq.toLeft (pick?_eq_some hv).2.1)
    rw [hsame] at hv hnext ⊢
    exact .head (.pick hstuck hv) hnext
  | case3 p q _ _ _ => exact (steps_peelSinks g p).trans (steps_peelSources g _)
  | case4 p q _ _ => exact (steps_peelSinks g p).trans (steps_peelSources g _)

/-- The counters are degrees all the while, whatever is placed. -/
theorem Step.counted {arcs : List Arc} (h : Step (.ofArcs n arcs) p q) (hp : p.Counted n arcs) :
    q.Counted n arcs := by
  cases h with
  | sink hsink => exact hp.toRight (isPlaced_of_isSink hsink)
  | source hsource => exact hp.toLeft (isPlaced_of_isSource hsource)
  | pick _ hpick => exact hp.toLeft (pick?_eq_some hpick).2.1

theorem Counted.of_steps {arcs : List Arc} (hp : p.Counted n arcs)
    (h : Steps (.ofArcs n arcs) p q) : q.Counted n arcs := by
  induction h with
  | refl => exact hp
  | tail _ hstep ih => exact hstep.counted ih

/-- The node placed stands between the two ends, at one end of what is left after it. -/
theorem Step.exists_peels (h : Step g p q) {vs : List Nat} (hvs : Peels g q vs) :
    ∃ ws, Peels g p ws ∧ q.left.reverse ++ vs ++ q.right = p.left.reverse ++ ws ++ p.right := by
  cases h with
  | @sink v hsink => exact ⟨vs ++ [v], .sink hsink hvs, by simp [toRight, place]⟩
  | @source v hsource => exact ⟨v :: vs, .source hsource hvs, by simp [toLeft, place]⟩
  | @pick v hstuck hv => exact ⟨v :: vs, .pick hstuck hv hvs, by simp [toLeft, place]⟩

theorem exists_peels_of_steps (h : Steps g p q) {vs : List Nat} (hvs : Peels g q vs) :
    ∃ ws, Peels g p ws ∧ q.left.reverse ++ vs ++ q.right = p.left.reverse ++ ws ++ p.right := by
  induction h using Relation.ReflTransGen.head_induction_on with
  | refl => exact ⟨vs, hvs, rfl⟩
  | head hstep _ ih =>
    obtain ⟨ws, hws, hw⟩ := ih
    obtain ⟨us, hus, hu⟩ := hstep.exists_peels hws
    exact ⟨us, hus, hw.trans hu⟩

/-- All nodes that are left are peeled into the sequence. -/
theorem peels_run (hg : g.size = n) (h : p.Valid n) :
    ∃ vs, Peels g p vs ∧ (run g p).sequence = p.left.reverse ++ vs ++ p.right := by
  obtain ⟨vs, hvs, hsequence⟩ := exists_peels_of_steps (steps_run hg h) (.done (h.run hg).2)
  rw [List.append_nil] at hsequence
  exact ⟨vs, hvs, hsequence⟩

end Run

/-! ## Arcs from and to what remains -/

section Remaining

variable {n : Nat} {arcs : List Arc} {p : Peeling} {v w : Nat} {vs : List Nat}

/-- What is left is a node and what is left after it. -/
theorem left_iff {g : Network} (hp : p.Valid n) (hv : p.isPlaced v = false) :
    w = v ∨ w < n ∧ (p.place g v).isPlaced w = false ↔ w < n ∧ p.isPlaced w = false := by
  rw [not_isPlaced_place]
  by_cases hw : w = v
  · simp [hw, hp.lt hv, hv]
  · simp [hw]

/-- Just what is left is peeled. -/
theorem Peels.mem_iff {g : Network} (h : Peels g p vs) (hp : p.Valid n) :
    w ∈ vs ↔ w < n ∧ p.isPlaced w = false := by
  induction h with
  | done hr =>
    have hmem := (hp.perm hr).mem_iff (a := w)
    rw [List.mem_range] at hmem
    simp only [List.not_mem_nil, false_iff, not_and, Bool.not_eq_false]
    exact fun hw => (hp.placed w hw).mpr (hmem.mpr hw)
  | sink hsink _ ih =>
    have hfree := isPlaced_of_isSink hsink
    rw [List.mem_append, List.mem_singleton, or_comm, ih (hp.toRight hfree)]
    exact left_iff (g := g) hp hfree
  | source hsource _ ih =>
    have hfree := isPlaced_of_isSource hsource
    rw [List.mem_cons, ih (hp.toLeft hfree)]
    exact left_iff (g := g) hp hfree
  | pick _ hpick _ ih =>
    have hfree := (pick?_eq_some hpick).2.1
    rw [List.mem_cons, ih (hp.toLeft hfree)]
    exact left_iff (g := g) hp hfree

theorem Peels.mem_of_toLeft {g : Network} (h : Peels g (p.toLeft g v) vs) (hp : p.Valid n)
    (hv : p.isPlaced v = false) : w ∈ vs ↔ w < n ∧ w ≠ v ∧ p.isPlaced w = false := by
  rw [h.mem_iff (hp.toLeft hv)]
  exact and_congr_right' (not_isPlaced_place (g := g))

theorem Peels.mem_of_toRight {g : Network} (h : Peels g (p.toRight g v) vs) (hp : p.Valid n)
    (hv : p.isPlaced v = false) : w ∈ vs ↔ w < n ∧ w ≠ v ∧ p.isPlaced w = false := by
  rw [h.mem_iff (hp.toRight hv)]
  exact and_congr_right' (not_isPlaced_place (g := g))

end Remaining

/-! ## The surplus of what remains -/

section Surplus

variable {n : Nat} {arcs : List Arc} {p : Peeling} {v : Nat} {vs : List Nat}

/-- Arcs are counted one by one at the nodes that they meet. -/
theorem sum_countP (arcs : List Arc) (test : Arc → Bool) (tip : Arc → Nat) (hvs : vs.Nodup) :
    (vs.map fun v => arcs.countP fun a => test a && decide (tip a = v)).sum =
      arcs.countP fun a => test a && decide (tip a ∈ vs) := by
  induction vs with
  | nil => simp
  | cons v rest ih =>
    obtain ⟨hv, hrest⟩ := List.nodup_cons.mp hvs
    rw [List.map_cons, List.sum_cons, ih hrest, ← countP_or_of_disjoint]
    · refine List.countP_congr fun a _ => ?_
      simp only [← Bool.and_or_distrib_left, List.mem_cons, Bool.decide_or]
    · intro a _ ha
      simp only [Bool.and_eq_true, decide_eq_true_eq] at ha
      rw [ha.2, decide_eq_false hv, Bool.and_false]

variable (hb : ∀ a ∈ arcs, a.1 < n ∧ a.2 < n)

include hb

/-- Among the nodes that are left, as many arcs go out as come in. -/
theorem outgoing_eq_incoming (p : Peeling) :
    (((List.range n).filter (!p.isPlaced ·)).map fun v =>
      (proper arcs).countP fun a => !p.isPlaced a.2 && decide (a.1 = v)).sum =
    (((List.range n).filter (!p.isPlaced ·)).map fun v =>
      (proper arcs).countP fun a => !p.isPlaced a.1 && decide (a.2 = v)).sum := by
  have hnodup := (List.nodup_range (n := n)).filter (!p.isPlaced ·)
  rw [sum_countP _ (fun a => !p.isPlaced a.2) Prod.fst hnodup,
    sum_countP _ (fun a => !p.isPlaced a.1) Prod.snd hnodup]
  refine List.countP_congr fun a ha => ?_
  obtain ⟨hu, hw⟩ := hb a (mem_proper.mp ha).1
  simp [hu, hw, and_comm]

/-- The picked node has no more arcs coming in than going out. -/
theorem incoming_le_outgoing (hp : p.Counted n arcs) (h : pick? (.ofArcs n arcs) p = some v) :
    (proper arcs).countP (fun a => !p.isPlaced a.1 && decide (a.2 = v)) ≤
      (proper arcs).countP fun a => !p.isPlaced a.2 && decide (a.1 = v) := by
  obtain ⟨hv, hfree, hlargest⟩ := pick?_eq_some h
  change v < n at hv
  apply Classical.byContradiction
  intro hless
  -- Otherwise all surpluses would be negative, but they balance.
  have hne : (List.range n).filter (!p.isPlaced ·) ≠ [] :=
    List.ne_nil_of_mem (List.mem_filter.mpr ⟨List.mem_range.mpr hv, by simp [hfree]⟩)
  refine (List.sum_lt_sum_of_ne_nil hne _ _ fun w hw => ?_).ne (outgoing_eq_incoming hb p)
  obtain ⟨hw, hwfree⟩ := List.mem_filter.mp hw
  have hle := hlargest w (List.mem_range.mp hw) (by simpa using hwfree)
  rw [hp.surplus_eq hv, hp.surplus_eq (List.mem_range.mp hw)] at hle
  omega

/-- Of the arcs between the nodes that are left, at most half lead back. -/
theorem Peels.back_le_ahead (h : Peels (.ofArcs n arcs) p vs) (hp : p.Counted n arcs) :
    back (proper arcs) vs ≤ ahead (proper arcs) vs := by
  induction h with
  | done => simp [back]
  | @sink p v vs hsink hrest ih =>
    have hfree := isPlaced_of_isSink hsink
    have hlast := ((hp.isSink_iff (hp.lt hfree)).mp hsink).2
    have hback : back (proper arcs) (vs ++ [v]) = back (proper arcs) vs := by
      refine List.countP_congr fun a ha => ?_
      simp only [decide_eq_true_eq, pair_sublist_concat, or_iff_left_iff_imp]
      rintro ⟨hmem, rfl⟩
      rw [hrest.mem_of_toRight hp.toValid hfree, hlast _ (mem_proper.mp ha)] at hmem
      exact absurd hmem.2.2 (by simp)
    rw [hback]
    refine (ih (hp.toRight hfree)).trans (List.countP_mono_left fun a _ hahead => ?_)
    rw [decide_eq_true_eq] at hahead ⊢
    exact hahead.trans (List.sublist_append_left _ _)
  | @source p v vs hsource hrest ih =>
    have hfree := isPlaced_of_isSource hsource
    have hfirst := ((hp.isSource_iff (hp.lt hfree)).mp hsource).2
    have hback : back (proper arcs) (v :: vs) = back (proper arcs) vs := by
      refine List.countP_congr fun a ha => ?_
      simp only [decide_eq_true_eq, pair_sublist_cons, or_iff_left_iff_imp]
      rintro ⟨rfl, hmem⟩
      rw [hrest.mem_of_toLeft hp.toValid hfree, hfirst _ (mem_proper.mp ha)] at hmem
      exact absurd hmem.2.2 (by simp)
    rw [hback]
    refine (ih (hp.toLeft hfree)).trans (List.countP_mono_left fun a _ hahead => ?_)
    rw [decide_eq_true_eq] at hahead ⊢
    exact hahead.trans (List.sublist_cons_self _ _)
  | @pick p v vs _ hpick hrest ih =>
    have hfree := (pick?_eq_some hpick).2.1
    have hv : v ∉ vs := fun hv => ((hrest.mem_of_toLeft hp.toValid hfree).mp hv).2.1 rfl
    rw [back_cons _ hv, ahead_cons _ hv]
    refine Nat.add_le_add (ih (hp.toLeft hfree)) ?_
    calc (proper arcs).countP (fun a => decide (a.2 = v) && decide (a.1 ∈ vs))
        ≤ (proper arcs).countP (fun a => !p.isPlaced a.1 && decide (a.2 = v)) := by
          refine List.countP_mono_left fun a _ => ?_
          simp only [Bool.and_eq_true, decide_eq_true_eq, Bool.not_eq_true']
          exact fun h => ⟨((hrest.mem_of_toLeft hp.toValid hfree).mp h.2).2.2, h.1⟩
      _ ≤ (proper arcs).countP (fun a => !p.isPlaced a.2 && decide (a.1 = v)) :=
          incoming_le_outgoing hb hp hpick
      _ ≤ (proper arcs).countP (fun a => decide (a.1 = v) && decide (a.2 ∈ vs)) := by
          refine List.countP_mono_left fun a ha => ?_
          obtain ⟨harc, hne⟩ := mem_proper.mp ha
          simp only [Bool.and_eq_true, decide_eq_true_eq, Bool.not_eq_true']
          rintro ⟨hleft, rfl⟩
          exact ⟨rfl, (hrest.mem_of_toLeft hp.toValid hfree).mpr ⟨(hb a harc).2, hne.symm, hleft⟩⟩

end Surplus

/-! ## Cycles on either side -/

section Cycles

variable {n : Nat} {arcs : List Arc} {p : Peeling} {u v : Nat} {vs : List Nat}

/-- An arc leads back only to a node that was picked while the start of the arc was left. -/
theorem Peels.exists_pick (h : Peels (.ofArcs n arcs) p vs) (hp : p.Counted n arcs)
    (hlead : Leads arcs u v) (hback : [v, u].Sublist vs) :
    ∃ q : Peeling, q.Counted n arcs ∧ Stuck q ∧ pick? (.ofArcs n arcs) q = some v ∧
      q.isPlaced u = false := by
  induction h with
  | done => cases hback
  | @sink p w vs hsink hrest ih =>
    have hfree := isPlaced_of_isSink hsink
    rcases pair_sublist_concat.mp hback with hback | ⟨hv, rfl⟩
    · exact ih (hp.toRight hfree) hback
    · have hplaced := ((hp.isSink_iff (hp.lt hfree)).mp hsink).2 v hlead
      rw [hrest.mem_of_toRight hp.toValid hfree, hplaced] at hv
      exact absurd hv.2.2 (by simp)
  | @source p w vs hsource hrest ih =>
    have hfree := isPlaced_of_isSource hsource
    rcases pair_sublist_cons.mp hback with hback | ⟨rfl, hu⟩
    · exact ih (hp.toLeft hfree) hback
    · have hplaced := ((hp.isSource_iff (hp.lt hfree)).mp hsource).2 u hlead
      rw [hrest.mem_of_toLeft hp.toValid hfree, hplaced] at hu
      exact absurd hu.2.2 (by simp)
  | @pick p w vs hstuck hpick hrest ih =>
    have hfree := (pick?_eq_some hpick).2.1
    rcases pair_sublist_cons.mp hback with hback | ⟨rfl, hu⟩
    · exact ih (hp.toLeft hfree) hback
    · exact ⟨p, hp, hstuck, hpick, ((hrest.mem_of_toLeft hp.toValid hfree).mp hu).2.2⟩

/-- Where every node that is left is followed by another, it is followed by a cycle. -/
theorem exists_cycle_left {R : Nat → Nat → Prop} (hp : p.Valid n)
    (hnext : ∀ w < n, p.isPlaced w = false → ∃ x < n, p.isPlaced x = false ∧ R w x)
    (hv : p.isPlaced v = false) :
    ∃ c, Relation.ReflTransGen R v c ∧ Relation.TransGen R c c := by
  have hmem : ∀ w, w ∈ (List.range n).filter (!p.isPlaced ·) ↔ w < n ∧ p.isPlaced w = false := by
    simp
  refine exists_cycle_ahead ?_ ((hmem v).mpr ⟨hp.lt hv, hv⟩)
  intro w hw
  obtain ⟨hw, hfree⟩ := (hmem w).mp hw
  obtain ⟨x, hx, hxfree, hstep⟩ := hnext w hw hfree
  exact ⟨x, (hmem x).mpr ⟨hx, hxfree⟩, hstep⟩

variable (hb : ∀ a ∈ arcs, a.1 < n ∧ a.2 < n) (h : Stuck p) (hp : p.Counted n arcs)
  (hv : p.isPlaced v = false)

include hb h hp hv

/-- Where no sink is left, all nodes that are left lead to a cycle. -/
theorem Stuck.exists_cycle_ahead :
    ∃ c, Relation.ReflTransGen (Leads arcs) v c ∧ Relation.TransGen (Leads arcs) c c := by
  refine exists_cycle_left hp.toValid (fun w hw hfree => ?_) hv
  have hsink := h.sink w
  rw [← Bool.not_eq_true, hp.isSink_iff hw, not_and, not_forall] at hsink
  obtain ⟨x, hx⟩ := hsink hfree
  rw [Classical.not_imp, Bool.not_eq_true] at hx
  exact ⟨x, (hb _ hx.1.1).2, hx.2, hx.1⟩

/-- Where no source is left, a cycle leads to all nodes that are left. -/
theorem Stuck.exists_cycle_behind :
    ∃ c, Relation.TransGen (Leads arcs) c c ∧ Relation.ReflTransGen (Leads arcs) c v := by
  have hcycle : ∃ c, Relation.ReflTransGen (Function.swap (Leads arcs)) v c ∧
      Relation.TransGen (Function.swap (Leads arcs)) c c := by
    refine exists_cycle_left hp.toValid (fun w hw hfree => ?_) hv
    have hsource := h.source w
    rw [← Bool.not_eq_true, hp.isSource_iff hw, not_and, not_forall] at hsource
    obtain ⟨x, hx⟩ := hsource hfree
    rw [Classical.not_imp, Bool.not_eq_true] at hx
    exact ⟨x, (hb _ hx.1.1).1, hx.2, hx.1⟩
  obtain ⟨c, hreach, hcycle⟩ := hcycle
  exact ⟨c, Relation.transGen_swap.mp hcycle, Relation.reflTransGen_swap.mp hreach⟩

end Cycles

end Peeling

/-! ## The sequence -/

section Sequence

variable {n : Nat} {arcs : List Arc}

theorem peels_sequence (n : Nat) (arcs : List Arc) :
    Peeling.Peels (.ofArcs n arcs) (.start (.ofArcs n arcs)) (sequence n arcs) := by
  obtain ⟨vs, hvs, hsequence⟩ := Peeling.peels_run rfl (Peeling.valid_start (.ofArcs n arcs))
  have hall : sequence n arcs = vs := hsequence.trans (List.append_nil _)
  exact hall ▸ hvs

/-- Places grow along the sequence. -/
theorem pairwise_placeOf (n : Nat) (arcs : List Arc) :
    (sequence n arcs).Pairwise fun u v => placeOf n arcs u < placeOf n arcs v := by
  have hperm := sequence_perm n arcs
  have hplace : ∀ {i : Nat} (hi : i < (sequence n arcs).length),
      placeOf n arcs (sequence n arcs)[i] = i := by
    intro i hi
    have hmem := hperm.mem_iff.mp (List.getElem_mem hi)
    obtain ⟨hlt, hget⟩ := getElem_placeOf arcs (List.mem_range.mp hmem)
    exact (hperm.nodup_iff.mpr List.nodup_range).getElem_inj_iff.mp hget
  refine List.pairwise_iff_getElem.mpr fun i j hi hj hij => ?_
  rwa [hplace hi, hplace hj]

theorem placeOf_lt_of_sublist {u v : Nat} (h : [u, v].Sublist (sequence n arcs)) :
    placeOf n arcs u < placeOf n arcs v :=
  List.pairwise_iff_forall_sublist.mp (pairwise_placeOf n arcs) h

theorem sublist_of_placeOf_lt {u v : Nat} (hu : u < n) (hv : v < n)
    (h : placeOf n arcs u < placeOf n arcs v) : [u, v].Sublist (sequence n arcs) := by
  have hmem : ∀ {w : Nat}, w < n → w ∈ sequence n arcs :=
    fun hw => (sequence_perm n arcs).mem_iff.mpr (List.mem_range.mpr hw)
  have hne : u ≠ v := fun huv => h.ne (huv ▸ rfl)
  refine (pair_sublist_or (hmem hu) (hmem hv) hne).resolve_right fun hback => ?_
  exact Nat.lt_asymm h (placeOf_lt_of_sublist hback)

variable (hb : ∀ a ∈ arcs, a.1 < n ∧ a.2 < n)

include hb

/-- At most half of the arcs that are no loops are turned around. -/
theorem two_mul_count_feedback_le :
    2 * (feedback n arcs).count true ≤ (proper arcs).length := by
  have hcount : (feedback n arcs).count true ≤ back (proper arcs) (sequence n arcs) := by
    rw [feedback_eq, List.count_eq_countP, List.countP_map, back, proper, List.countP_filter]
    refine List.countP_mono_left fun a ha => ?_
    simp only [Function.comp_apply, beq_true, Bool.and_eq_true, decide_eq_true_eq]
    rintro ⟨hne, hlt⟩
    exact ⟨sublist_of_placeOf_lt (hb a ha).2 (hb a ha).1 hlt, hne⟩
  have hhalf := (peels_sequence n arcs).back_le_ahead hb (Peeling.counted_start hb)
  have hboth : ahead (proper arcs) (sequence n arcs) + back (proper arcs) (sequence n arcs) ≤
      (proper arcs).length := by
    rw [List.length_eq_countP_add_countP
      (fun a => decide ([a.1, a.2].Sublist (sequence n arcs)))]
    refine Nat.add_le_add_left (List.countP_mono_left fun a _ hback => ?_) _
    simp only [decide_eq_true_eq] at hback ⊢
    exact fun hahead => Nat.lt_asymm (placeOf_lt_of_sublist hahead) (placeOf_lt_of_sublist hback)
  omega

omit hb in
theorem mem_zip_feedback {a : Arc} : (a, true) ∈ arcs.zip (feedback n arcs) ↔
    a ∈ arcs ∧ a.1 ≠ a.2 ∧ placeOf n arcs a.2 < placeOf n arcs a.1 := by
  rw [feedback_eq, ← List.map_prod_left_eq_zip, List.mem_map]
  constructor
  · rintro ⟨b, hb, heq⟩
    obtain ⟨rfl, hturned⟩ := Prod.mk.inj heq
    exact ⟨hb, by simpa using hturned⟩
  · rintro ⟨ha, hne, hlt⟩
    exact ⟨a, ha, by simp [hne, hlt]⟩

/-- An arc that is turned around has a cycle behind its start and one ahead of its end. -/
theorem exists_cycles_of_feedback {a : Arc} (h : (a, true) ∈ arcs.zip (feedback n arcs)) :
    ∃ c d, Relation.TransGen (Leads arcs) c c ∧ Relation.ReflTransGen (Leads arcs) c a.1 ∧
      Relation.ReflTransGen (Leads arcs) a.2 d ∧ Relation.TransGen (Leads arcs) d d := by
  obtain ⟨ha, hne, hlt⟩ := mem_zip_feedback.mp h
  obtain ⟨p, hp, hstuck, hpick, hleft⟩ := (peels_sequence n arcs).exists_pick
    (Peeling.counted_start hb) ⟨ha, hne⟩ (sublist_of_placeOf_lt (hb a ha).2 (hb a ha).1 hlt)
  obtain ⟨c, hc, hbehind⟩ := hstuck.exists_cycle_behind hb hp hleft
  obtain ⟨d, hahead, hd⟩ := hstuck.exists_cycle_ahead hb hp (Peeling.pick?_eq_some hpick).2.1
  exact ⟨c, d, hc, hbehind, hahead, hd⟩

end Sequence

end Tiered.Layering
