import Mathlib.Order.WellFoundedSet
import Tiered.Proofs.Layering.Degrees

/-!
# Turning feedback arcs around leaves no cycle

Arcs without a cycle lead forward all along the sequence (`feedback_of_acyclic`): as long as there
are nodes left, one of them is a sink, so no node is ever picked against an arc.
-/

namespace Tiered.Layering

/-! ## Arcs without a cycle -/

/-- Steps from smaller places to larger ones never lead back. -/
theorem not_transGen_self {α : Type} {R : α → α → Prop} (place : α → Nat)
    (h : ∀ u v, R u v → place u < place v) (v : α) : ¬ Relation.TransGen R v v := by
  have hlt : ∀ {u w : α}, Relation.TransGen R u w → place u < place w := by
    intro u w hway
    induction hway with
    | single hstep => exact h _ _ hstep
    | tail _ hstep ih => exact ih.trans (h _ _ hstep)
  exact fun hcycle => Nat.lt_irrefl _ (hlt hcycle)

/-- No way along the arcs leads back to its start, loops apart. -/
def Acyclic (arcs : List Arc) : Prop := ∀ v, ¬ Relation.TransGen (Leads arcs) v v

/-- Where each of finitely many nodes leads to another of them, they lead to a cycle. -/
theorem exists_cycle_ahead {R : Nat → Nat → Prop} {vs : List Nat}
    (hnext : ∀ v ∈ vs, ∃ w ∈ vs, R v w) {v : Nat} (hv : v ∈ vs) :
    ∃ c, Relation.ReflTransGen R v c ∧ Relation.TransGen R c c := by
  apply Classical.byContradiction
  intro hnone
  -- The nodes ahead of `v` have no cycle, so they would not be infinitely far from one another.
  have horder : IsStrictOrder {w // w ∈ vs ∧ Relation.ReflTransGen R v w} fun a b =>
      Relation.TransGen R b.1 a.1 :=
    { irrefl := fun a ha => hnone ⟨a.1, a.2.2, ha⟩, trans := fun a b c hab hbc => hbc.trans hab }
  have hfinite : Finite {w // w ∈ vs ∧ Relation.ReflTransGen R v w} :=
    (List.finite_toSet vs).subset fun w hw => hw.1
  have hfounded := Finite.wellFounded_of_trans_of_irrefl
    fun a b : {w // w ∈ vs ∧ Relation.ReflTransGen R v w} => Relation.TransGen R b.1 a.1
  refine hfounded.induction (C := fun _ => False) ⟨v, hv, .refl⟩ ?_
  rintro ⟨u, hu, hreach⟩ ih
  obtain ⟨w, hw, hlead⟩ := hnext u hu
  exact ih ⟨w, hw, hreach.tail hlead⟩ (.single hlead)

/-- Some node of a finite set leads to no other. -/
theorem exists_last {arcs : List Arc} (h : Acyclic arcs) {vs : List Nat} (hvs : vs ≠ []) :
    ∃ v ∈ vs, ∀ w ∈ vs, ¬ Leads arcs v w := by
  obtain ⟨u, hu⟩ := List.exists_mem_of_ne_nil vs hvs
  apply Classical.byContradiction
  intro hnone
  have hnext : ∀ v ∈ vs, ∃ w ∈ vs, Leads arcs v w := by
    intro v hv
    apply Classical.byContradiction
    intro hlast
    exact hnone ⟨v, hv, fun w hw hlead => hlast ⟨w, hw, hlead⟩⟩
  obtain ⟨c, -, hcycle⟩ := exists_cycle_ahead hnext hu
  exact h c hcycle

namespace Peeling

/-- So far no arc leads back, and none leads in between the two ends from the right or to the
left. -/
structure Forward (arcs : List Arc) (p : Peeling) : Prop where
  ahead : p.sequence.Pairwise fun a b => ¬ Leads arcs b a
  left : ∀ u v, Leads arcs u v → v ∈ p.left → u ∈ p.left
  right : ∀ u v, Leads arcs u v → u ∈ p.right → v ∈ p.right

variable {n : Nat} {arcs : List Arc} {p : Peeling} {v : Nat}

theorem mem_sequence : v ∈ p.sequence ↔ v ∈ p.left ∨ v ∈ p.right := by
  simp [sequence]

theorem forward_start (g : Network) (arcs : List Arc) : Forward arcs (start g) := by
  refine ⟨List.Pairwise.nil, ?_, ?_⟩
  · exact fun _ _ _ hv => nomatch hv
  · exact fun _ _ _ hu => nomatch hu

/-- A node between the two ends may be put there, as no arc from the right or to the left meets
it. -/
theorem Forward.insert (h : Forward arcs p) (hv : v ∉ p.sequence) :
    (p.left.reverse ++ v :: p.right).Pairwise fun a b => ¬ Leads arcs b a := by
  rw [mem_sequence, not_or] at hv
  obtain ⟨hleft, hright, hcross⟩ := List.pairwise_append.mp h.ahead
  refine List.pairwise_append.mpr ⟨hleft, List.pairwise_cons.mpr ⟨?_, hright⟩, ?_⟩
  · exact fun b hb hlead => hv.2 (h.right b v hlead hb)
  · intro a ha b hb
    rcases List.mem_cons.mp hb with rfl | hb
    · exact fun hlead => hv.1 (h.left b a hlead (List.mem_reverse.mp ha))
    · exact hcross a ha b hb

variable (hb : ∀ a ∈ arcs, a.1 < n ∧ a.2 < n)

include hb

theorem Forward.toRight (h : Forward arcs p) (hp : p.Counted n arcs)
    (hsink : p.isSink v = true) : Forward arcs (p.toRight (.ofArcs n arcs) v) := by
  have hv := hp.lt (isPlaced_of_isSink hsink)
  obtain ⟨hfree, hplaced⟩ := (hp.isSink_iff hv).mp hsink
  have hnew := hp.notMem hfree
  refine ⟨h.insert hnew, h.left, ?_⟩
  rw [mem_sequence, not_or] at hnew
  intro u w hlead hu
  rcases List.mem_cons.mp hu with rfl | hu
  · have hw := (hp.placed w (hb _ hlead.1).2).mp (hplaced w hlead)
    rcases mem_sequence.mp hw with hw | hw
    · exact absurd (h.left u w hlead hw) hnew.1
    · exact List.mem_cons_of_mem _ hw
  · exact List.mem_cons_of_mem _ (h.right u w hlead hu)

theorem Forward.toLeft (h : Forward arcs p) (hp : p.Counted n arcs)
    (hsource : p.isSource v = true) : Forward arcs (p.toLeft (.ofArcs n arcs) v) := by
  have hv := hp.lt (isPlaced_of_isSource hsource)
  obtain ⟨hfree, hplaced⟩ := (hp.isSource_iff hv).mp hsource
  have hnew := hp.notMem hfree
  refine ⟨(sequence_toLeft _ p v).symm ▸ h.insert hnew, ?_, h.right⟩
  rw [mem_sequence, not_or] at hnew
  intro u w hlead hw
  rcases List.mem_cons.mp hw with rfl | hw
  · have hu := (hp.placed u (hb _ hlead.1).1).mp (hplaced u hlead)
    rcases mem_sequence.mp hu with hu | hu
    · exact List.mem_cons_of_mem _ hu
    · exact absurd (h.right u w hlead hu) hnew.2
  · exact List.mem_cons_of_mem _ (h.left u w hlead hw)

theorem Forward.peelSinks (h : Forward arcs p) (hp : p.Counted n arcs) :
    Forward arcs (peelSinks (.ofArcs n arcs) p) := by
  have hboth : Forward arcs (Peeling.peelSinks (.ofArcs n arcs) p) ∧
      (Peeling.peelSinks (.ofArcs n arcs) p).Counted n arcs := by
    refine List.foldlRecOn (motive := fun q : Peeling => Forward arcs q ∧ q.Counted n arcs) _ _
      ⟨h, hp⟩ ?_
    rintro q ⟨hq, hcounted⟩ v -
    split
    · rename_i hsink
      exact ⟨hq.toRight hb hcounted hsink, hcounted.toRight (isPlaced_of_isSink hsink)⟩
    · exact ⟨hq, hcounted⟩
  exact hboth.1

theorem Forward.peelSources (h : Forward arcs p) (hp : p.Counted n arcs) :
    Forward arcs (peelSources (.ofArcs n arcs) p) := by
  have hboth : Forward arcs (Peeling.peelSources (.ofArcs n arcs) p) ∧
      (Peeling.peelSources (.ofArcs n arcs) p).Counted n arcs := by
    refine List.foldlRecOn (motive := fun q : Peeling => Forward arcs q ∧ q.Counted n arcs) _ _
      ⟨h, hp⟩ ?_
    rintro q ⟨hq, hcounted⟩ v -
    split
    · rename_i hsource
      exact ⟨hq.toLeft hb hcounted hsource, hcounted.toLeft (isPlaced_of_isSource hsource)⟩
    · exact ⟨hq, hcounted⟩
  exact hboth.1

omit hb in
/-- A look at every node places something as long as some node passes its test. -/
theorem remaining_foldl_lt (test : Peeling → Nat → Bool) (move : Peeling → Nat → Peeling)
    (hmove : ∀ q v, (move q v).remaining = q.remaining - 1) (hr : 0 < p.remaining) {vs : List Nat}
    (hv : v ∈ vs) (htest : test p v = true) :
    (vs.foldl (fun q v => if test q v then move q v else q) p).remaining < p.remaining := by
  have hle : ∀ q v, (if test q v then move q v else q).remaining ≤ q.remaining := by
    intro q v
    split
    · exact (hmove q v).symm ▸ Nat.sub_le _ _
    · exact Nat.le_refl _
  induction vs with
  | nil => cases hv
  | cons w rest ih =>
    rw [List.foldl_cons]
    by_cases hw : test p w = true
    · rw [if_pos hw]
      refine Nat.lt_of_le_of_lt (remaining_foldl_le _ hle _ rest) ?_
      rw [hmove]
      exact Nat.sub_lt hr Nat.one_pos
    · rw [if_neg hw]
      rcases List.mem_cons.mp hv with rfl | hv
      · exact absurd htest hw
      · exact ih hv

omit hb in
theorem remaining_peelSinks_lt {g : Network} (hr : 0 < p.remaining) (hv : v < g.size)
    (hsink : p.isSink v = true) : (Peeling.peelSinks g p).remaining < p.remaining :=
  remaining_foldl_lt isSink (Peeling.toRight g) (fun _ _ => rfl) hr (List.mem_range.mpr hv) hsink

omit hb in
theorem remaining_peelSources_lt {g : Network} (hr : 0 < p.remaining) (hv : v < g.size)
    (hsource : p.isSource v = true) : (Peeling.peelSources g p).remaining < p.remaining :=
  remaining_foldl_lt isSource (Peeling.toLeft g) (fun _ _ => rfl) hr (List.mem_range.mpr hv)
    hsource

/-- Without a cycle there is a sink as long as nodes remain. -/
theorem exists_sink (hacyclic : Acyclic arcs) (hp : p.Counted n arcs) (hr : 0 < p.remaining) :
    ∃ v < n, p.isSink v = true := by
  obtain ⟨u, hu, hfree⟩ := hp.exists_not_placed hr
  have hmem : u ∈ (List.range n).filter (!p.isPlaced ·) := by simp [hu, hfree]
  obtain ⟨v, hv, hlast⟩ := exists_last hacyclic (List.ne_nil_of_mem hmem)
  obtain ⟨hvn, hvfree⟩ := List.mem_filter.mp hv
  have hvlt := List.mem_range.mp hvn
  refine ⟨v, hvlt, (hp.isSink_iff hvlt).mpr ⟨by simpa using hvfree, ?_⟩⟩
  intro w hlead
  apply Classical.byContradiction
  intro hwfree
  refine hlast w (List.mem_filter.mpr ⟨List.mem_range.mpr (hb _ hlead.1).2, ?_⟩) hlead
  simpa using hwfree

/-- Without a cycle no node is picked that is neither a sink nor a source. -/
theorem Forward.run (hacyclic : Acyclic arcs) (h : Forward arcs p) (hp : p.Counted n arcs) :
    Forward arcs (run (.ofArcs n arcs) p) := by
  have hround : ∀ {q : Peeling}, Forward arcs q → q.Counted n arcs → Forward arcs
      (Peeling.peelSources (.ofArcs n arcs) (Peeling.peelSinks (.ofArcs n arcs) q)) :=
    fun hq hcounted => (hq.peelSinks hb hcounted).peelSources hb hcounted.peelSinks
  fun_induction Peeling.run (.ofArcs n arcs) p with
  | case1 p q _ ih => exact ih (hround h hp) hp.peelSinks.peelSources
  | case2 p q hstuck hleft v hv ih =>
    -- Had nodes remained, a sink would have been peeled off.
    have hsources : q.remaining ≤ (Peeling.peelSinks (.ofArcs n arcs) p).remaining :=
      remaining_peelSources_le _ _
    have hsinks : (Peeling.peelSinks (.ofArcs n arcs) p).remaining ≤ p.remaining :=
      remaining_peelSinks_le _ _
    obtain ⟨w, hw, hsink⟩ := exists_sink hb hacyclic hp (by omega)
    have hprogress := remaining_peelSinks_lt (g := .ofArcs n arcs) (by omega) hw hsink
    omega
  | case3 p q _ _ _ => exact hround h hp
  | case4 p q _ _ => exact hround h hp

end Peeling

/-- Arcs without a cycle all lead forward, so none is turned around. -/
theorem feedback_of_acyclic {n : Nat} {arcs : List Arc} (hb : ∀ a ∈ arcs, a.1 < n ∧ a.2 < n)
    (h : Acyclic arcs) : ∀ flip ∈ feedback n arcs, flip = false := by
  have hforward := (Peeling.forward_start (.ofArcs n arcs) arcs).run hb h
    (Peeling.counted_start hb)
  intro flip hflip
  rw [feedback_eq] at hflip
  obtain ⟨⟨u, v⟩, harc, rfl⟩ := List.mem_map.mp hflip
  obtain ⟨hu, hv⟩ := hb _ harc
  obtain ⟨hi, hgetu⟩ := getElem_placeOf arcs hu
  obtain ⟨hj, hgetv⟩ := getElem_placeOf arcs hv
  apply Classical.byContradiction
  intro hback
  simp only [Bool.and_eq_false_imp, decide_eq_true_eq, decide_eq_false_iff_not, not_forall,
    Classical.not_not] at hback
  obtain ⟨hne, hlt⟩ := hback
  have hnot := List.pairwise_iff_getElem.mp hforward.ahead _ _ hj hi hlt
  apply hnot
  change Leads arcs (sequence n arcs)[placeOf n arcs u] (sequence n arcs)[placeOf n arcs v]
  rw [hgetu, hgetv]
  exact ⟨harc, hne⟩

end Tiered.Layering
