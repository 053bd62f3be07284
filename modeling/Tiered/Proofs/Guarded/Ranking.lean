import Tiered.Proofs.Guarded.Access
import Tiered.Proofs.Layering.LongestWays

/-!
# Ranks in a single pass

Kahn's loop takes the nodes in an order in which every node comes after all that lead to it, and
relaxes each span once.

* `Descending`: what the loop keeps: the counters say how many spans to a node are still to come,
  the nodes without any are ready or have been taken, and the spans relaxed so far are kept;
* `relax?_spec`, `descend?_spec`: a single span and the whole loop keep this; without a cycle the
  loop ends when every node was taken, once each;
* `assignRanks?_eq`: so the pass gets through with the ranks that relaxing over and over finds, for
  any addition that is exact as far as the spans together go;
* `assignRanks?_snug`: with the addition that stops at the largest machine number, the ranks are
  the tight longest ways.
-/

namespace Tiered.Layering

/-! ## The pass -/

/-- The spans by their upper ends, and how many of them lead to each node. -/
structure Fan where
  outgoing : Array (List Span)
  inDegree : Array Nat

def Fan.enter? (f : Fan) (s : Span) : Option Fan := do
  let outgoing ← modify? f.outgoing s.upper (· ++ [s])
  let inDegree ← modify? f.inDegree s.lower (· + 1)
  return { outgoing, inDegree }

def fan? (n : Nat) (spans : List Span) : Option Fan :=
  spans.foldlM Fan.enter?
    { outgoing := Array.replicate n [], inDegree := Array.replicate n 0 }

/-- Where the loop stands. -/
structure Descent where
  ranks : Array Nat
  /-- For each node how many spans to it were not relaxed yet. -/
  pending : Array Nat
  /-- The nodes to take next, the least of them first. -/
  ready : List Nat

/-- Relaxes a span, after which its lower end may be ready. -/
def relax? (add : Nat → Nat → Nat) (d : Descent) (s : Span) : Option Descent := do
  let ranks ← write? d.ranks s.lower
    (max (← d.ranks[s.lower]?) (add (← d.ranks[s.upper]?) s.span))
  let left ← minus? (← d.pending[s.lower]?) 1
  let pending ← write? d.pending s.lower left
  return { ranks, pending, ready := if left = 0 then s.lower :: d.ready else d.ready }

namespace Descent

/-- How many nodes there are still to take. -/
def toTake (d : Descent) : Nat := d.ready.length + d.pending.countP (0 < ·)

/-- A node that becomes ready does not wait any more. -/
theorem toTake_relax? {add : Nat → Nat → Nat} {d e : Descent} {s : Span}
    (h : relax? add d s = some e) : e.toTake = d.toTake := by
  simp only [relax?, minus?, write?, Option.bind_eq_bind, Option.bind_eq_some_iff,
    Option.ite_none_right_eq_some, Option.pure_def, Option.some.injEq] at h
  obtain ⟨_, -, _, -, _, -, k, hk, _, ⟨hpos, rfl⟩, _, ⟨hlower, rfl⟩, rfl⟩ := h
  obtain ⟨_, rfl⟩ := Array.getElem?_eq_some_iff.mp hk
  have hwaits : decide (0 < d.pending[s.lower]) = true := decide_eq_true hpos
  have hcount := Array.boole_getElem_le_countP (p := (0 < ·)) hlower
  simp only [toTake, Array.setIfInBounds_def, dif_pos hlower, Array.countP_set, hwaits,
    if_true] at hcount ⊢
  by_cases hlast : d.pending[s.lower] - 1 = 0
  · simp only [hlast, if_true, List.length_cons, Nat.lt_irrefl, decide_false,
      Bool.false_eq_true, if_false]
    omega
  · rw [if_neg hlast, if_pos (decide_eq_true (Nat.pos_of_ne_zero hlast))]
    omega

theorem toTake_foldlM {add : Nat → Nat → Nat} {ss : List Span} {d e : Descent}
    (h : ss.foldlM (relax? add) d = some e) : e.toTake = d.toTake := by
  induction ss generalizing d with
  | nil => cases h; rfl
  | cons s rest ih =>
    rw [List.foldlM_cons, Option.bind_eq_bind, Option.bind_eq_some_iff] at h
    obtain ⟨next, hnext, hrest⟩ := h
    exact (ih hrest).trans (toTake_relax? hnext)

end Descent

/-- Takes the least node that is ready, relaxes its spans, and goes on until no node is ready. -/
def descend? (add : Nat → Nat → Nat) (outgoing : Array (List Span)) (d : Descent) :
    Option Descent :=
  match _hleast : d.ready.min? with
  | none => some d
  | some v =>
    match _hnext : (outgoing[v]?.bind fun ss =>
        ss.foldlM (relax? add) { d with ready := d.ready.erase v }) with
    | none => none
    | some next => descend? add outgoing next
termination_by d.toTake
decreasing_by
  obtain ⟨ss, -, hss⟩ := Option.bind_eq_some_iff.mp _hnext
  have htaken := Descent.toTake_foldlM hss
  have hv := (List.min?_eq_some_iff.mp _hleast).1
  have hlength := List.length_erase_of_mem hv
  have hpos := List.length_pos_of_mem hv
  simp only [Descent.toTake] at htaken ⊢
  omega

/-- Moves a node that no span leads to down as far as the spans from it allow. -/
def pull? (f : Fan) (ranks : Array Nat) (v : Nat) : Option (Array Nat) := do
  if (← f.inDegree[v]?) ≠ 0 then return ranks
  let rooms : List Nat ← (← f.outgoing[v]?).mapM fun s => do
    return (← ranks[s.lower]?) - s.span
  match rooms.min? with
  | none => return ranks
  | some tightest => write? ranks v tightest

/-- Counts from the least rank on. -/
def fromLeast? (ranks : Array Nat) : Option (Array Nat) :=
  match ranks.toList.min? with
  | none => some ranks
  | some least => do return (← ranks.toList.mapM (minus? · least)).toArray

/-- The ranks of `n` nodes in a single pass over the spans. -/
def assignRanks? (add : Nat → Nat → Nat) (n : Nat) (spans : List Span) : Option (Array Nat) := do
  let f ← fan? n spans
  let ready ← (List.range n).filterM fun v => do return (← f.inDegree[v]?) == 0
  let d ← descend? add f.outgoing { ranks := Array.replicate n 0, pending := f.inDegree, ready }
  let pulled ← (List.range n).foldlM (pull? f) d.ranks
  fromLeast? pulled

/-! ## What the loop keeps -/

section Loop

variable {n : Nat} {spans : List Span}

/-- The spans are those entered. -/
structure Fan.Holds (n : Nat) (spans : List Span) (f : Fan) : Prop where
  sizes : f.outgoing.size = n ∧ f.inDegree.size = n
  outgoing : ∀ v < n, f.outgoing.getD v [] = spans.filter (·.upper == v)
  inDegree : ∀ v < n, f.inDegree.getD v 0 = spans.countP (·.lower == v)

theorem Fan.Holds.enter? {f : Fan} (h : f.Holds n spans) {s : Span}
    (hs : s.upper < n ∧ s.lower < n) :
    ∃ g, f.enter? s = some g ∧ g.Holds n (spans ++ [s]) := by
  refine ⟨⟨f.outgoing.modify s.upper (· ++ [s]), f.inDegree.modify s.lower (· + 1)⟩, ?_,
    ⟨?_, ?_⟩, ?_, ?_⟩
  · rw [Fan.enter?, modify?_eq (h.sizes.1.symm ▸ hs.1), modify?_eq (h.sizes.2.symm ▸ hs.2)]
    rfl
  · exact Array.size_modify.trans h.sizes.1
  · exact Array.size_modify.trans h.sizes.2
  · intro v hv
    rw [getD_modify_append _ _ _ (h.sizes.1.symm ▸ hv), h.outgoing v hv, List.filter_append]
    by_cases hsv : s.upper = v <;> simp [hsv]
  · intro v hv
    rw [getD_modify, h.inDegree v hv, List.countP_append]
    by_cases hsv : s.lower = v <;> simp [hsv, h.sizes.2, hv]

theorem fan?_spec (hb : ∀ s ∈ spans, s.upper < n ∧ s.lower < n) :
    ∃ f, fan? n spans = some f ∧ f.Holds n spans := by
  refine exists_foldlM_eq (P := Fan.Holds n) (fun _ _ hf s hs => hf.enter? (hb s hs))
    ⟨⟨Array.size_replicate, Array.size_replicate⟩, ?_, ?_⟩
  · exact fun v _ => getD_replicate n v []
  · exact fun v _ => getD_replicate n v 0

/-- The spans that were not relaxed yet are `rest`, those that were are kept, and each rank is that
of a way. -/
structure Descending (n : Nat) (spans : List Span) (taken : List Nat) (rest : List Span)
    (d : Descent) : Prop where
  sizes : d.ranks.size = n ∧ d.pending.size = n
  pending : ∀ v < n, d.pending.getD v 0 = rest.countP (·.lower == v)
  ready : ∀ v, v ∈ d.ready ↔ v < n ∧ v ∉ taken ∧ d.pending.getD v 0 = 0
  nodup : d.ready.Nodup ∧ taken.Nodup
  bound : ∀ v ∈ taken, v < n
  fresh : ∀ s ∈ rest, s ∈ spans ∧ s.lower ∉ taken
  kept : ∀ s ∈ spans, s ∈ rest ∨ s.upper ∈ taken ∧ s.Kept d.ranks
  reached : Reached spans d.ranks

/-- The addition is exact for the ranks that the spans can ask for. -/
def ExactFor (add : Nat → Nat → Nat) (spans : List Span) : Prop :=
  ∀ a b, a + b ≤ (spans.map Span.span).sum → add a b = a + b

variable {place : Nat → Nat} {add : Nat → Nat → Nat} {taken : List Nat} {rest : List Span}
  {d : Descent}

theorem add_eq (hup : Upward place n spans) (hadd : ExactFor add spans)
    (h : Reached spans d.ranks) {s : Span} (hs : s ∈ spans) :
    add (d.ranks.getD s.upper 0) s.span = d.ranks.getD s.upper 0 + s.span := by
  obtain ⟨u, hway⟩ := h s.upper
  exact hadd _ _ (((hway.step hs).le_load hup).trans (load_le_sum _ _ _))

theorem getD_relax_of_ne {ranks : Array Nat} {s : Span} {v : Nat} (h : v ≠ s.lower) :
    (relax ranks s).getD v 0 = ranks.getD v 0 := by
  rw [relax, getD_modify, if_neg fun hv => h hv.1.symm]

/-- A span is relaxed once its upper end was taken. -/
theorem relax?_spec (hup : Upward place n spans) (hadd : ExactFor add spans) {s : Span}
    (h : Descending n spans taken (s :: rest) d) (hs : s.upper ∈ taken) :
    ∃ e, relax? add d s = some e ∧ Descending n spans taken rest e := by
  obtain ⟨hspan, hfresh⟩ := h.fresh s List.mem_cons_self
  have hlower := hup.lower s hspan
  have hwaits : d.pending.getD s.lower 0 = rest.countP (·.lower == s.lower) + 1 := by
    rw [h.pending _ hlower, List.countP_cons_of_pos]
    exact beq_self_eq_true _
  generalize hleft : rest.countP (·.lower == s.lower) = left at hwaits
  have hunready : s.lower ∉ d.ready := fun hready => by
    have := ((h.ready _).mp hready).2.2
    omega
  have hpending : ∀ v, (d.pending.setIfInBounds s.lower left).getD v 0 =
      if s.lower = v then left else d.pending.getD v 0 := fun v => by
    rw [getD_setIfInBounds]
    by_cases hv : s.lower = v
    · rw [if_pos ⟨hv, h.sizes.2.symm ▸ hv ▸ hlower⟩, if_pos hv]
    · rw [if_neg fun hboth => hv hboth.1, if_neg hv]
  have hranks : d.ranks.setIfInBounds s.lower
      (max (d.ranks.getD s.lower 0) (add (d.ranks.getD s.upper 0) s.span)) =
        relax d.ranks s := by
    refine ext_getD 0 (by simp [size_relax]) fun v hv => ?_
    rw [add_eq hup hadd h.reached hspan, relax, getD_setIfInBounds, getD_modify]
    split
    · rename_i hvs
      rw [hvs.1]
    · rfl
  refine ⟨⟨relax d.ranks s, d.pending.setIfInBounds s.lower left,
    if left = 0 then s.lower :: d.ready else d.ready⟩, ?_, ?_⟩
  · rw [relax?, getElem?_of_lt (h.sizes.1.symm ▸ hlower) 0,
      getElem?_of_lt (h.sizes.1.symm ▸ hup.upper s hspan) 0,
      getElem?_of_lt (h.sizes.2.symm ▸ hlower) 0]
    simp only [Option.bind_eq_bind, Option.bind_some, write?_eq (h.sizes.1.symm ▸ hlower),
      write?_eq (h.sizes.2.symm ▸ hlower), hranks, hwaits, minus?_eq (Nat.le_add_left 1 _),
      Nat.add_sub_cancel]
    rfl
  constructor
  case sizes =>
    exact ⟨(size_relax _ _).trans h.sizes.1, Array.size_setIfInBounds.trans h.sizes.2⟩
  case pending =>
    intro v hv
    rw [hpending]
    by_cases hsv : s.lower = v
    · rw [if_pos hsv, ← hsv, hleft]
    · rw [if_neg hsv, h.pending v hv, List.countP_cons_of_neg (by simpa using hsv)]
  case ready =>
    intro v
    rw [hpending]
    by_cases hsv : s.lower = v
    · subst hsv
      by_cases hlast : left = 0 <;> simp [hlast, hlower, hfresh, hunready]
    · rw [if_neg hsv, ← h.ready v]
      by_cases hlast : left = 0 <;> simp [hlast, Ne.symm hsv]
  case nodup =>
    refine ⟨?_, h.nodup.2⟩
    split
    · exact List.nodup_cons.mpr ⟨hunready, h.nodup.1⟩
    · exact h.nodup.1
  case bound => exact h.bound
  case fresh => exact fun t ht => h.fresh t (List.mem_cons_of_mem _ ht)
  case kept =>
    intro t ht
    rcases h.kept t ht with hwait | ⟨htaken, hkept⟩
    · rcases List.mem_cons.mp hwait with rfl | hwait
      · refine .inr ⟨hs, ?_⟩
        rw [Span.Kept, getD_relax_of_ne fun heq => hfresh (heq ▸ hs)]
        exact le_relax_lower (h.sizes.1.symm ▸ hlower)
      · exact .inl hwait
    · refine .inr ⟨htaken, ?_⟩
      rw [Span.Kept, getD_relax_of_ne fun heq => hfresh (heq ▸ htaken)]
      exact Nat.le_trans hkept (le_relax _ _ _)
  case reached => exact h.reached.relax hspan

theorem relaxAll?_spec (hup : Upward place n spans) (hadd : ExactFor add spans) {ss : List Span}
    (h : Descending n spans taken (ss ++ rest) d) (hss : ∀ s ∈ ss, s.upper ∈ taken) :
    ∃ e, ss.foldlM (relax? add) d = some e ∧ Descending n spans taken rest e := by
  induction ss generalizing d with
  | nil => exact ⟨d, rfl, h⟩
  | cons s ss ih =>
    obtain ⟨hs, hss⟩ := List.forall_mem_cons.mp hss
    obtain ⟨next, hnext, hkeeps⟩ := relax?_spec hup hadd h hs
    obtain ⟨e, he, hrest⟩ := ih hkeeps hss
    exact ⟨e, by rw [List.foldlM_cons, hnext]; exact he, hrest⟩

/-- The spans from nodes that were not taken. -/
def leaving (spans : List Span) (taken : List Nat) : List Span :=
  spans.filter fun s => s.upper ∉ taken

/-- No span leads to a node that is ready, other than from nodes that were taken. -/
theorem Descending.take (h : Descending n spans taken (leaving spans taken) d) {v : Nat}
    (hv : v ∈ d.ready) :
    Descending n spans (v :: taken)
      (spans.filter (·.upper == v) ++ leaving spans (v :: taken))
      { d with ready := d.ready.erase v } := by
  obtain ⟨hvn, hnew, hzero⟩ := (h.ready v).mp hv
  have hperm : (leaving spans taken).Perm
      (spans.filter (·.upper == v) ++ leaving spans (v :: taken)) := by
    refine (List.filter_append_perm (·.upper == v) _).symm.trans (.of_eq ?_)
    rw [leaving, leaving, List.filter_filter, List.filter_filter]
    congr 1
    · refine List.filter_congr fun s _ => ?_
      by_cases hs : s.upper = v
      · simp [hs, hnew]
      · simp [hs]
    · refine List.filter_congr fun s _ => ?_
      by_cases hs : s.upper = v <;> simp [hs]
  have hnone : ∀ s ∈ leaving spans taken, s.lower ≠ v := by
    rw [h.pending v hvn, List.countP_eq_zero] at hzero
    simpa using hzero
  constructor
  case sizes => exact h.sizes
  case pending => exact fun w hw => (h.pending w hw).trans (hperm.countP_eq _)
  case ready =>
    intro w
    rw [h.nodup.1.mem_erase_iff, h.ready w, List.mem_cons, not_or]
    tauto
  case nodup => exact ⟨h.nodup.1.erase v, List.nodup_cons.mpr ⟨hnew, h.nodup.2⟩⟩
  case bound => exact List.forall_mem_cons.mpr ⟨hvn, h.bound⟩
  case fresh =>
    intro s hs
    have hs := hperm.mem_iff.mpr hs
    obtain ⟨hspan, hfresh⟩ := h.fresh s hs
    exact ⟨hspan, fun hin => (List.mem_cons.mp hin).elim (hnone s hs) hfresh⟩
  case kept =>
    intro s hs
    rw [← hperm.mem_iff]
    exact (h.kept s hs).imp_right (And.imp_left (List.mem_cons_of_mem _))
  case reached => exact h.reached

/-- A node that is ready is taken, and all spans from it are relaxed. -/
theorem take?_spec (hup : Upward place n spans) (hadd : ExactFor add spans)
    {outgoing : Array (List Span)}
    (hout : ∀ v < n, outgoing[v]? = some (spans.filter (·.upper == v)))
    (h : Descending n spans taken (leaving spans taken) d) {v : Nat} (hv : v ∈ d.ready) :
    ∃ e, (outgoing[v]?.bind fun ss =>
        ss.foldlM (relax? add) { d with ready := d.ready.erase v }) = some e ∧
      Descending n spans (v :: taken) (leaving spans (v :: taken)) e := by
  obtain ⟨hvn, -, -⟩ := (h.ready v).mp hv
  rw [hout v hvn, Option.bind_some]
  refine relaxAll?_spec hup hadd (h.take hv) fun s hs => ?_
  rw [eq_of_beq (List.mem_filter.mp hs).2]
  exact List.mem_cons_self

/-- The loop ends when no node is ready. -/
theorem descend?_spec (hup : Upward place n spans) (hadd : ExactFor add spans)
    {outgoing : Array (List Span)}
    (hout : ∀ v < n, outgoing[v]? = some (spans.filter (·.upper == v)))
    (h : Descending n spans taken (leaving spans taken) d) :
    ∃ e done, descend? add outgoing d = some e ∧
      Descending n spans done (leaving spans done) e ∧ e.ready = [] := by
  fun_induction descend? add outgoing d generalizing taken with
  | case1 d hleast => exact ⟨d, taken, rfl, h, List.min?_eq_none_iff.mp hleast⟩
  | case2 d v hleast hnone =>
    obtain ⟨e, he, -⟩ := take?_spec hup hadd hout h (List.min?_eq_some_iff.mp hleast).1
    rw [hnone] at he
    cases he
  | case3 d v hleast next hnext ih =>
    obtain ⟨e, he, hkeeps⟩ := take?_spec hup hadd hout h (List.min?_eq_some_iff.mp hleast).1
    rw [hnext, Option.some.injEq] at he
    exact ih (he ▸ hkeeps)

/-- Without a cycle every node is taken, as there is no first one among the others. -/
theorem Descending.mem_taken (hup : Upward place n spans)
    (h : Descending n spans taken (leaving spans taken) d) (hdone : d.ready = []) {v : Nat}
    (hv : v < n) : v ∈ taken := by
  induction hk : place v using Nat.strong_induction_on generalizing v with
  | _ k ih =>
    apply Classical.byContradiction
    intro hnew
    have hwaits : d.pending.getD v 0 ≠ 0 := fun hzero => by
      have hready := (h.ready v).mpr ⟨hv, hnew, hzero⟩
      rw [hdone] at hready
      cases hready
    rw [h.pending v hv] at hwaits
    obtain ⟨s, hs, hlower⟩ := List.countP_pos_iff.mp (Nat.pos_of_ne_zero hwaits)
    obtain ⟨hspan, hupper⟩ := List.mem_filter.mp hs
    have hlt := hup.lt s hspan
    rw [eq_of_beq hlower, hk] at hlt
    exact of_decide_eq_true hupper (ih _ hlt (hup.upper s hspan) rfl)

/-- **Kahn's loop.** It takes every node once, no counter falls below zero, and the ranks are the
longest ways. -/
theorem descend?_start (hup : Upward place n spans) (hadd : ExactFor add spans) {f : Fan}
    (hf : f.Holds n spans) :
    ∃ e, ∃ done : List Nat, descend? add f.outgoing
        { ranks := Array.replicate n 0, pending := f.inDegree
          ready := (List.range n).filter (f.inDegree.getD · 0 == 0) } = some e ∧
      done.Perm (List.range n) ∧ e.ranks = longestWays n spans := by
  have hstart : Descending n spans [] (leaving spans [])
      { ranks := Array.replicate n 0, pending := f.inDegree
        ready := (List.range n).filter (f.inDegree.getD · 0 == 0) } := by
    have hall : leaving spans [] = spans := by simp [leaving]
    rw [hall]
    exact {
      sizes := ⟨Array.size_replicate, hf.sizes.2⟩
      pending := hf.inDegree
      ready := by simp
      nodup := ⟨List.nodup_range.filter _, List.nodup_nil⟩
      bound := by simp
      fresh := fun s hs => ⟨hs, List.not_mem_nil⟩
      kept := fun s hs => .inl hs
      reached := fun v => ⟨v, by rw [getD_replicate]; exact .here⟩ }
  have hout : ∀ v < n, f.outgoing[v]? = some (spans.filter (·.upper == v)) := fun v hv => by
    rw [getElem?_of_lt (hf.sizes.1.symm ▸ hv) [], hf.outgoing v hv]
  obtain ⟨e, done, he, hkeeps, hdone⟩ := descend?_spec hup hadd hout hstart
  have hmem : ∀ {v : Nat}, v < n → v ∈ done := hkeeps.mem_taken hup hdone
  have hkept : ∀ s ∈ spans, s.Kept e.ranks := by
    intro s hs
    refine ((hkeeps.kept s hs).resolve_left fun hrest => ?_).2
    exact of_decide_eq_true (List.mem_filter.mp hrest).2 (hmem (hup.upper s hs))
  refine ⟨e, done, he, ?_, ?_⟩
  · refine (List.perm_ext_iff_of_nodup hkeeps.nodup.2 List.nodup_range).mpr fun v => ?_
    rw [List.mem_range]
    exact ⟨hkeeps.bound v, hmem⟩
  · refine ext_getD 0 ?_ fun v _ => ?_
    · rw [hkeeps.sizes.1, size_longestWays]
    · exact (isGreatest_of_kept hkept hkeeps.reached v).unique (isGreatest_longestWays hup v)

end Loop

/-! ## The whole pass -/

section Pass

variable {n : Nat} {spans : List Span} {ways ranks : Array Nat}

/-- Sources are pulled down one after the other, of which no span sees anything: none leads to
them. -/
structure Pulling (n : Nat) (spans : List Span) (ways ranks : Array Nat) : Prop where
  size : ranks.size = n
  same : ∀ v, Entered spans v ∨ ¬ Departed spans v → ranks.getD v 0 = ways.getD v 0

theorem pulledRank_same {v : Nat} (hv : Entered spans v ∨ ¬ Departed spans v) :
    pulledRank ways spans v = ways.getD v 0 := by
  by_cases he : Entered spans v
  · rw [pulledRank, if_pos (any_lower_iff.mpr he)]
  · have hnone : spans.filter (·.upper == v) = [] :=
      List.filter_eq_nil_iff.mpr fun s hs hupper =>
        hv.resolve_left he ⟨s, hs, eq_of_beq hupper⟩
    rw [pulledRank, if_neg (mt any_lower_iff.mp he), hnone]
    rfl

theorem Pulling.write_same (h : Pulling n spans ways ranks) {v : Nat}
    (hv : Entered spans v ∨ ¬ Departed spans v) :
    ranks.setIfInBounds v (pulledRank ways spans v) = ranks := by
  refine ext_getD 0 Array.size_setIfInBounds fun w _ => ?_
  rw [getD_setIfInBounds]
  split
  · rename_i hvw
    rw [pulledRank_same hv, ← h.same v hv, hvw.1]
  · rfl

theorem pull?_spec {f : Fan} (hf : f.Holds n spans) (hb : ∀ s ∈ spans, s.lower < n)
    (h : Pulling n spans ways ranks) {v : Nat} (hv : v < n) :
    pull? f ranks v = some (ranks.setIfInBounds v (pulledRank ways spans v)) := by
  have hdegree : f.inDegree[v]? = some (spans.countP (·.lower == v)) := by
    rw [getElem?_of_lt (hf.sizes.2.symm ▸ hv) 0, hf.inDegree v hv]
  have hout : f.outgoing[v]? = some (spans.filter (·.upper == v)) := by
    rw [getElem?_of_lt (hf.sizes.1.symm ▸ hv) [], hf.outgoing v hv]
  rw [pull?, bind_of_eq_some hdegree]
  by_cases he : Entered spans v
  · have hcount : spans.countP (·.lower == v) ≠ 0 := by
      obtain ⟨s, hs, hlower⟩ := he
      exact (List.countP_pos_iff.mpr ⟨s, hs, by simpa using hlower⟩).ne'
    rw [if_pos hcount, h.write_same (.inl he)]
    rfl
  · have hcount : ¬ spans.countP (·.lower == v) ≠ 0 := by
      rw [Classical.not_not, List.countP_eq_zero]
      exact fun s hs hlower => he ⟨s, hs, eq_of_beq hlower⟩
    have hrooms : ((spans.filter (·.upper == v)).mapM fun s => do
        return (← ranks[s.lower]?) - s.span) =
        some ((spans.filter (·.upper == v)).map fun s => ways.getD s.lower 0 - s.span) := by
      refine mapM_eq_some fun s hs => ?_
      have hspan := (List.mem_filter.mp hs).1
      rw [getElem?_of_lt (h.size.symm ▸ hb s hspan) 0, h.same s.lower (.inl ⟨s, hspan, rfl⟩)]
      rfl
    rw [if_neg hcount, bind_of_eq_some hout, bind_of_eq_some hrooms]
    cases hleast : ((spans.filter (·.upper == v)).map fun s =>
        ways.getD s.lower 0 - s.span).min? with
    | none =>
      have hleaf : ¬ Departed spans v := by
        rintro ⟨s, hs, hupper⟩
        have hempty := List.map_eq_nil_iff.mp (List.min?_eq_none_iff.mp hleast)
        exact List.filter_eq_nil_iff.mp hempty s hs (beq_iff_eq.mpr hupper)
      rw [h.write_same (.inr hleaf)]
      rfl
    | some tightest =>
      have hpulled : pulledRank ways spans v = tightest := by
        rw [pulledRank, if_neg (mt any_lower_iff.mp he)]
        dsimp only
        rw [hleast, Option.getD_some]
      rw [hpulled]
      exact write?_eq (h.size.symm ▸ hv) _

theorem Pulling.write (h : Pulling n spans ways ranks) (v : Nat) :
    Pulling n spans ways (ranks.setIfInBounds v (pulledRank ways spans v)) := by
  refine ⟨Array.size_setIfInBounds.trans h.size, fun w hw => ?_⟩
  rw [getD_setIfInBounds]
  split
  · rename_i hvw
    rw [hvw.1, pulledRank_same hw]
  · exact h.same w hw

theorem pullAll?_eq {f : Fan} (hf : f.Holds n spans) (hb : ∀ s ∈ spans, s.lower < n)
    (hsize : ways.size = n) : (List.range n).foldlM (pull? f) ways =
      some ((List.range n).map (pulledRank ways spans)).toArray := by
  have hfold := (foldlM_eq_some (P := Pulling n spans ways) (f := pull? f)
    (g := fun ranks v => ranks.setIfInBounds v (pulledRank ways spans v)) (l := List.range n)
    (fun ranks h v hv => ⟨pull?_spec hf hb h (List.mem_range.mp hv), h.write v⟩)
    ⟨hsize, fun _ _ => rfl⟩).1
  rw [hfold]
  congr 1
  have hwrites : (List.range n).foldl
      (fun ranks v => ranks.setIfInBounds v (pulledRank ways spans v)) ways =
        writes ways ((List.range n).map fun v => (v, pulledRank ways spans v)) := by
    rw [writes, List.foldl_map]
  rw [hwrites]
  refine ext_getD 0 (by simp [hsize]) fun v hv => ?_
  rw [size_writes, hsize] at hv
  have hnodup : (((List.range n).map fun v => (v, pulledRank ways spans v)).map
      Prod.fst).Nodup := by
    simpa [List.map_map, Function.comp_def] using List.nodup_range
  rw [getD_writes_of_mem hnodup (List.mem_map.mpr ⟨v, List.mem_range.mpr hv, rfl⟩)
    (hsize.symm ▸ hv)]
  simp [hv]

theorem fromLeast?_eq (pulled : List Nat) :
    fromLeast? pulled.toArray = some (pulled.map (· - pulled.min?.getD 0)).toArray := by
  rw [fromLeast?]
  cases hleast : pulled.min? with
  | none =>
    rw [List.min?_eq_none_iff.mp hleast]
    rfl
  | some least =>
    have hle := (List.min?_eq_some_iff.mp hleast).2
    dsimp only
    rw [mapM_eq_some fun k hk => minus?_eq (hle k hk)]
    rfl

/-- **A single pass finds the ranks.** For spans that lead up some places nothing in it can fail,
and it finds the ranks that relaxing over and over does. -/
theorem assignRanks?_eq {place : Nat → Nat} {add : Nat → Nat → Nat} (hup : Upward place n spans)
    (hadd : ExactFor add spans) :
    assignRanks? add n spans = some (ranking n spans) := by
  have hb : ∀ s ∈ spans, s.upper < n ∧ s.lower < n := fun s hs => ⟨hup.upper s hs, hup.lower s hs⟩
  obtain ⟨f, hfan, hf⟩ := fan?_spec hb
  obtain ⟨e, -, hdescend, -, hways⟩ := descend?_start hup hadd hf
  have hready : ((List.range n).filterM fun v => do return (← f.inDegree[v]?) == 0) =
      some ((List.range n).filter (f.inDegree.getD · 0 == 0)) := by
    refine filterM_eq_some fun v hv => ?_
    rw [getElem?_of_lt (hf.sizes.2.symm ▸ List.mem_range.mp hv) 0]
    rfl
  have hpull := pullAll?_eq hf (fun s hs => (hb s hs).2) (size_longestWays n spans)
  rw [assignRanks?, bind_of_eq_some hfan, bind_of_eq_some hready, bind_of_eq_some hdescend, hways,
    bind_of_eq_some hpull, fromLeast?_eq]
  rfl

end Pass

/-- The largest machine number. -/
def maxWord : Nat := 2 ^ 64 - 1

/-- Addition that stops at the largest machine number. -/
def saturatingAdd (a b : Nat) : Nat := min (a + b) maxWord

/-- **Ranks are longest ways.** Spans without a cycle, which together ask for no more ranks than
there are machine numbers, get the smallest ranks that keep them, except that sources are pulled
down to the nearest node that they lead to. A single pass over the spans finds these ranks: no
counter falls below zero, and all accesses are in range. -/
theorem assignRanks?_snug {n : Nat} {spans : List Span}
    (hb : ∀ s ∈ spans, s.upper < n ∧ s.lower < n) (hloop : ∀ s ∈ spans, s.upper ≠ s.lower)
    (h : Acyclic (spans.map Span.arc)) (hsum : (spans.map Span.span).sum ≤ maxWord) :
    assignRanks? saturatingAdd n spans = some (ranking n spans) ∧ (ranking n spans).size = n ∧
      Snug n spans ((ranking n spans).getD · 0) := by
  have hexact : ExactFor saturatingAdd spans := fun a b hab => Nat.min_eq_left (hab.trans hsum)
  exact ⟨assignRanks?_eq (upward_of_acyclic hb hloop h) hexact, size_ranking n spans,
    snug_ranking hb hloop h⟩

/-- A short cut, a source with room to spare, and a node by itself. -/
def someSpans : List Span := [⟨0, 1, 1⟩, ⟨1, 2, 2⟩, ⟨0, 2, 1⟩, ⟨4, 2, 1⟩]

theorem assignRanks?_snug_someSpans :
    (∀ s ∈ someSpans, s.upper < 5 ∧ s.lower < 5) ∧ (∀ s ∈ someSpans, s.upper ≠ s.lower) ∧
      Acyclic (someSpans.map Span.arc) ∧ (someSpans.map Span.span).sum ≤ maxWord ∧
      assignRanks? saturatingAdd 5 someSpans = some #[0, 1, 3, 0, 2] ∧
      Snug 5 someSpans ((ranking 5 someSpans).getD · 0) := by
  have hb : ∀ s ∈ someSpans, s.upper < 5 ∧ s.lower < 5 := by decide
  have hloop : ∀ s ∈ someSpans, s.upper ≠ s.lower := by decide
  have hplace : ∀ a ∈ someSpans.map Span.arc, a.1 % 4 < a.2 % 4 := by decide
  have hacyclic : Acyclic (someSpans.map Span.arc) :=
    not_transGen_self (· % 4) fun u v hlead => hplace (u, v) hlead.1
  have hsum : (someSpans.map Span.span).sum ≤ maxWord := by decide
  obtain ⟨hranks, -, hsnug⟩ := assignRanks?_snug hb hloop hacyclic hsum
  have hvalue : ranking 5 someSpans = #[0, 1, 3, 0, 2] := by decide
  exact ⟨hb, hloop, hacyclic, hsum, hvalue ▸ hranks, hsnug⟩

end Tiered.Layering
