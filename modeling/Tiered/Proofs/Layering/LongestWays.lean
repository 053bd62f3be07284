import Mathlib.Data.Finset.Lattice.Fold
import Mathlib.Data.Finset.Max
import Mathlib.Order.Bounds.Basic
import Tiered.Proofs.Layering.Peeling
import Tiered.Proofs.Layering.Ranking

/-!
# Ranks are longest ways

* `Way`: spans that lead on from one another, and how many ranks they ask for together;
* `isGreatest_longestWays`: relaxing finds the longest way to every node;
* `exists_tight`: the last span of a longest way has no room to spare;
* `leastRank_eq_zero`: pulling sources down leaves a node at the top, so that counting from the
  least rank on changes nothing;
* `snug_ranking`: what is known of the ranks altogether.
-/

namespace Tiered.Layering

/-! ## Ways -/

def Span.arc (s : Span) : Arc := (s.upper, s.lower)

/-- Spans lead from `u` to the node, and ask for so many ranks together. -/
inductive Way (spans : List Span) (u : Nat) : Nat → Nat → Prop
  | here : Way spans u u 0
  | step {k : Nat} {s : Span} : Way spans u s.upper k → s ∈ spans → Way spans u s.lower (k + s.span)

/-- Some span leads to the node. -/
def Entered (spans : List Span) (v : Nat) : Prop := ∃ s ∈ spans, s.lower = v

/-- Some span leads from the node. -/
def Departed (spans : List Span) (v : Nat) : Prop := ∃ s ∈ spans, s.upper = v

section Ways

variable {spans : List Span} {ranks : Array Nat} {u v k : Nat}

/-- Ranks that keep all spans are as far apart as any way between them asks for. -/
theorem Way.le (h : Way spans u v k) (rank : Nat → Nat)
    (hkept : ∀ s ∈ spans, rank s.upper + s.span ≤ rank s.lower) : rank u + k ≤ rank v := by
  induction h with
  | here => exact Nat.le_refl _
  | step _ hs ih =>
    have := hkept _ hs
    omega

theorem Way.eq_zero (h : Way spans u v k) (hv : ¬ Entered spans v) : k = 0 := by
  cases h with
  | here => rfl
  | step _ hs => exact absurd ⟨_, hs, rfl⟩ hv

/-- Each number is that of a way to its node. -/
def Reached (spans : List Span) (ranks : Array Nat) : Prop :=
  ∀ v, ∃ u, Way spans u v (ranks.getD v 0)

theorem Reached.relax (h : Reached spans ranks) {s : Span} (hs : s ∈ spans) :
    Reached spans (relax ranks s) := by
  intro v
  rw [Layering.relax, getD_modify]
  split
  · rename_i hlower
    obtain ⟨rfl, -⟩ := hlower
    rcases Nat.le_total (ranks.getD s.lower 0) (ranks.getD s.upper 0 + s.span) with hle | hle
    · rw [Nat.max_eq_right hle]
      obtain ⟨u, hu⟩ := h s.upper
      exact ⟨u, hu.step hs⟩
    · rw [Nat.max_eq_left hle]
      exact h s.lower
  · exact h v

theorem Reached.settleRanks (h : Reached spans ranks) (rounds : Nat) :
    Reached spans (settleRanks spans rounds ranks) := by
  induction rounds generalizing ranks with
  | zero => exact h
  | succ rounds ih =>
    unfold Layering.settleRanks
    dsimp only
    split
    · exact h
    · exact ih (List.foldlRecOn (motive := Reached spans) _ _ h fun _ hr _ hs => hr.relax hs)

theorem reached_longestWays (n : Nat) (spans : List Span) :
    Reached spans (longestWays n spans) := by
  refine Reached.settleRanks (fun v => ⟨v, ?_⟩) n
  rw [getD_replicate]
  exact .here

end Ways

/-! ## Longest ways -/

section Longest

variable {place : Nat → Nat} {n : Nat} {spans : List Span} {v : Nat}

/-- Arcs without a cycle can be put in places such that they lead from smaller to larger ones. -/
theorem upward_of_acyclic (hb : ∀ s ∈ spans, s.upper < n ∧ s.lower < n)
    (hloop : ∀ s ∈ spans, s.upper ≠ s.lower) (h : Acyclic (spans.map Span.arc)) :
    Upward (placeOf n (spans.map Span.arc)) n spans := by
  have harcs : ∀ a ∈ spans.map Span.arc, a.1 < n ∧ a.2 < n := by
    intro a ha
    obtain ⟨s, hs, rfl⟩ := List.mem_map.mp ha
    exact hb s hs
  refine ⟨fun s hs => ?_, fun s hs => (hb s hs).1, fun s hs => (hb s hs).2,
    fun s hs => placeOf_lt (hb s hs).2⟩
  have hne := placeOf_ne (spans.map Span.arc) (hb s hs).1 (hb s hs).2 (hloop s hs)
  have hback :
      ¬placeOf n (spans.map Span.arc) s.lower < placeOf n (spans.map Span.arc) s.upper := by
    intro hlt
    have hturned := mem_zip_feedback.mpr
      ⟨List.mem_map_of_mem (f := Span.arc) hs, hloop s hs, hlt⟩
    exact Bool.false_ne_true (feedback_of_acyclic harcs h _ (List.of_mem_zip hturned).2).symm
  omega

/-- Ranks that keep all spans, each of them that of a way, are those of the longest ways. -/
theorem isGreatest_of_kept {ranks : Array Nat} (hkept : ∀ s ∈ spans, s.Kept ranks)
    (hreached : Reached spans ranks) (v : Nat) :
    IsGreatest {k | ∃ u, Way spans u v k} (ranks.getD v 0) := by
  refine ⟨hreached v, ?_⟩
  rintro k ⟨u, hway⟩
  have := hway.le (ranks.getD · 0) hkept
  omega

theorem isGreatest_longestWays (hup : Upward place n spans) (v : Nat) :
    IsGreatest {k | ∃ u, Way spans u v k} ((longestWays n spans).getD v 0) :=
  isGreatest_of_kept (fun _ hs => kept_longestWays hup hs) (reached_longestWays n spans) v

theorem longestWays_eq_zero (n : Nat) (hv : ¬ Entered spans v) :
    (longestWays n spans).getD v 0 = 0 := by
  obtain ⟨u, hway⟩ := reached_longestWays n spans v
  exact hway.eq_zero hv

/-- A longest way that leads to a node has a last span without room to spare. -/
theorem exists_tight (hup : Upward place n spans) (hv : Entered spans v) :
    ∃ s ∈ spans, s.lower = v ∧ (longestWays n spans).getD s.upper 0 + s.span =
      (longestWays n spans).getD s.lower 0 := by
  have hkept : ∀ s ∈ spans, (longestWays n spans).getD s.upper 0 + s.span ≤
      (longestWays n spans).getD s.lower 0 := fun s hs => kept_longestWays hup hs
  obtain ⟨u, hway⟩ := reached_longestWays n spans v
  generalize hk : (longestWays n spans).getD v 0 = k at hway
  cases hway with
  | here =>
    obtain ⟨s, hs, rfl⟩ := hv
    have := hkept s hs
    exact ⟨s, hs, rfl, by omega⟩
  | @step k s hway hs =>
    have hlongest := (isGreatest_longestWays hup s.upper).2 ⟨u, hway⟩
    have := hkept s hs
    exact ⟨s, hs, rfl, by omega⟩

/-! ## No way takes a span twice -/

theorem sum_map_add_le {α : Type} {f g : α → Nat} {xs : List α} (hle : ∀ x ∈ xs, f x ≤ g x) {x : α}
    (hx : x ∈ xs) {c : Nat} (hc : f x + c ≤ g x) : (xs.map f).sum + c ≤ (xs.map g).sum := by
  induction xs with
  | nil => cases hx
  | cons y rest ih =>
    rw [List.map_cons, List.map_cons, List.sum_cons, List.sum_cons]
    rcases List.mem_cons.mp hx with rfl | hx
    · have := List.sum_le_sum fun z hz => hle z (List.mem_cons_of_mem _ hz)
      omega
    · have hy := hle y List.mem_cons_self
      have := ih (fun z hz => hle z (List.mem_cons_of_mem _ hz)) hx
      omega

/-- What the spans to the places up to `k` ask for together. -/
def load (place : Nat → Nat) (spans : List Span) (k : Nat) : Nat :=
  (spans.map fun s => if place s.lower ≤ k then s.span else 0).sum

theorem load_le_sum (place : Nat → Nat) (spans : List Span) (k : Nat) :
    load place spans k ≤ (spans.map Span.span).sum := by
  refine List.sum_le_sum fun s _ => ?_
  split
  · exact Nat.le_refl _
  · exact Nat.zero_le _

/-- All spans of a way lead to different places. -/
theorem Way.le_load (hup : Upward place n spans) {u k : Nat} (h : Way spans u v k) :
    k ≤ load place spans (place v) := by
  induction h with
  | here => exact Nat.zero_le _
  | @step k s _ hs ih =>
    have hlt := hup.lt s hs
    refine (Nat.add_le_add_right ih _).trans (sum_map_add_le (fun t _ => ?_) hs ?_)
    · split
      · rw [if_pos (by omega)]
      · exact Nat.zero_le _
    · rw [if_neg (by omega), if_pos (Nat.le_refl _), Nat.zero_add]

theorem longestWays_le_sum (hup : Upward place n spans) (v : Nat) :
    (longestWays n spans).getD v 0 ≤ (spans.map Span.span).sum := by
  obtain ⟨u, hway⟩ := reached_longestWays n spans v
  exact (hway.le_load hup).trans (load_le_sum _ _ _)

/-! ## Sources -/

theorem any_lower_iff : spans.any (·.lower == v) = true ↔ Entered spans v := by
  simp [Entered]

/-- A source is pulled down until one of its spans has no room to spare. -/
theorem isLeast_pulledRank (hup : Upward place n spans) (hv : ¬ Entered spans v)
    (hd : Departed spans v) :
    IsLeast {k | ∃ s ∈ spans, s.upper = v ∧ k + s.span = (longestWays n spans).getD s.lower 0}
      (pulledRank (longestWays n spans) spans v) := by
  have hroom : ∀ k, k ∈ ((spans.filter (·.upper == v)).map fun s =>
      (longestWays n spans).getD s.lower 0 - s.span) ↔
        ∃ s ∈ spans, s.upper = v ∧ k + s.span = (longestWays n spans).getD s.lower 0 := by
    intro k
    have hspan : ∀ s ∈ spans, s.span ≤ (longestWays n spans).getD s.lower 0 := fun s hs =>
      (Nat.le_add_left _ _).trans (kept_longestWays hup hs)
    simp only [List.mem_map, List.mem_filter, beq_iff_eq]
    constructor
    · rintro ⟨s, ⟨hs, rfl⟩, rfl⟩
      exact ⟨s, hs, rfl, Nat.sub_add_cancel (hspan s hs)⟩
    · rintro ⟨s, hs, rfl, hk⟩
      exact ⟨s, ⟨hs, rfl⟩, by omega⟩
  obtain ⟨s, hs, hupper⟩ := hd
  have hmem := (hroom ((longestWays n spans).getD s.lower 0 - s.span)).mpr
    ⟨s, hs, hupper, Nat.sub_add_cancel ((Nat.le_add_left _ _).trans (kept_longestWays hup hs))⟩
  rw [pulledRank, if_neg (mt any_lower_iff.mp hv)]
  dsimp only
  obtain ⟨least, hleast⟩ := Option.isSome_iff_exists.mp (List.isSome_min?_of_mem hmem)
  obtain ⟨hattained, hle⟩ := List.min?_eq_some_iff.mp hleast
  rw [hleast, Option.getD_some]
  exact ⟨(hroom _).mp hattained, fun k hk => hle k ((hroom k).mpr hk)⟩

theorem pulledRank_isolated (n : Nat) (hv : ¬ Entered spans v) (hd : ¬ Departed spans v) :
    pulledRank (longestWays n spans) spans v = 0 := by
  have hroom : spans.filter (·.upper == v) = [] := by
    refine List.filter_eq_nil_iff.mpr fun s hs hupper => ?_
    exact hd ⟨s, hs, eq_of_beq hupper⟩
  rw [pulledRank, if_neg (mt any_lower_iff.mp hv), hroom, longestWays_eq_zero n hv]
  rfl

/-- Some node stays at the top. -/
theorem leastRank_eq_zero (hup : Upward place n spans) (hn : 0 < n) : leastRank n spans = 0 := by
  have htop : ∃ v < n, pulledRank (longestWays n spans) spans v = 0 := by
    cases spans with
    | nil => exact ⟨0, hn, pulledRank_isolated n (by simp [Entered]) (by simp [Departed])⟩
    | cons first rest =>
      -- A span to the first of all places that spans lead to, and one without room to spare.
      obtain ⟨s, hs, hfirst⟩ := (first :: rest).toFinset.exists_min_image (fun s => place s.lower)
        ⟨first, List.mem_toFinset.mpr List.mem_cons_self⟩
      obtain ⟨t, ht, hlower, htight⟩ := exists_tight hup ⟨s, List.mem_toFinset.mp hs, rfl⟩
      have hsource : ¬ Entered (first :: rest) t.upper := by
        rintro ⟨r, hr, hlead⟩
        have hle := hfirst r (List.mem_toFinset.mpr hr)
        have hlt := hup.lt t ht
        rw [hlead, ← hlower] at hle
        omega
      refine ⟨t.upper, hup.upper t ht, Nat.le_zero.mp ?_⟩
      refine (isLeast_pulledRank hup hsource ⟨t, ht, rfl⟩).2 ⟨t, ht, rfl, ?_⟩
      rw [← htight, longestWays_eq_zero n hsource]
  obtain ⟨v, hv, hzero⟩ := htop
  exact Nat.le_zero.mp (hzero ▸ (leastRank_spec spans hv).1)

theorem getD_ranking_eq (hup : Upward place n spans) (hv : v < n) :
    (ranking n spans).getD v 0 = pulledRank (longestWays n spans) spans v := by
  rw [getD_ranking hv, leastRank_eq_zero hup (by omega), Nat.sub_zero]

/-- Only sources are pulled down. -/
theorem getD_ranking_lower (hup : Upward place n spans) {s : Span} (hs : s ∈ spans) :
    (ranking n spans).getD s.lower 0 = (longestWays n spans).getD s.lower 0 :=
  (getD_ranking_eq hup (hup.lower s hs)).trans (pulledRank_lower hs)

/-- Pulling sources down takes no room away where there was none to spare. -/
theorem exists_tight_ranking (hup : Upward place n spans) (hv : Entered spans v) :
    ∃ s ∈ spans, s.lower = v ∧
      (ranking n spans).getD s.upper 0 + s.span = (ranking n spans).getD s.lower 0 := by
  obtain ⟨s, hs, rfl, htight⟩ := exists_tight hup hv
  refine ⟨s, hs, rfl, Nat.le_antisymm (kept_ranking hup hs) ?_⟩
  rw [getD_ranking_lower hup hs, ← htight]
  refine Nat.add_le_add_right ?_ _
  by_cases hupper : Entered spans s.upper
  · obtain ⟨t, ht, hlower⟩ := hupper
    rw [← hlower, getD_ranking_lower hup ht]
  · rw [longestWays_eq_zero n hupper]
    exact Nat.zero_le _

theorem isLeast_ranking (hup : Upward place n spans) (hv : ¬ Entered spans v)
    (hd : Departed spans v) :
    IsLeast {k | ∃ s ∈ spans, s.upper = v ∧ k + s.span = (ranking n spans).getD s.lower 0}
      ((ranking n spans).getD v 0) := by
  obtain ⟨hattained, hle⟩ := isLeast_pulledRank hup hv hd
  obtain ⟨s, hs, rfl⟩ := hd
  rw [getD_ranking_eq hup (hup.upper s hs)]
  constructor
  · obtain ⟨t, ht, hupper, hroom⟩ := hattained
    exact ⟨t, ht, hupper, by rw [getD_ranking_lower hup ht, hroom]⟩
  · rintro k ⟨t, ht, hupper, hroom⟩
    exact hle ⟨t, ht, hupper, by rw [hroom, getD_ranking_lower hup ht]⟩

theorem ranking_isolated (hup : Upward place n spans) (hv : v < n) (he : ¬ Entered spans v)
    (hd : ¬ Departed spans v) : (ranking n spans).getD v 0 = 0 :=
  (getD_ranking_eq hup hv).trans (pulledRank_isolated n he hd)

/-- A node that spans lead to is no lower than in any other ranking. -/
theorem ranking_le_of_kept (hup : Upward place n spans) {other : Nat → Nat}
    (hother : ∀ s ∈ spans, other s.upper + s.span ≤ other s.lower) {s : Span} (hs : s ∈ spans) :
    (ranking n spans).getD s.lower 0 ≤ other s.lower := by
  rw [getD_ranking_lower hup hs]
  obtain ⟨u, hway⟩ := reached_longestWays n spans s.lower
  exact (Nat.le_add_left _ _).trans (hway.le other hother)

/-- Below the top there are only nodes that spans lead to, and sources above such nodes. -/
theorem ranking_eq_zero_or_le (hup : Upward place n spans) (hv : v < n) :
    (ranking n spans).getD v 0 = 0 ∨
      ∃ s ∈ spans, (ranking n spans).getD v 0 ≤ (ranking n spans).getD s.lower 0 := by
  by_cases he : Entered spans v
  · obtain ⟨s, hs, rfl⟩ := he
    exact .inr ⟨s, hs, Nat.le_refl _⟩
  by_cases hd : Departed spans v
  · obtain ⟨s, hs, -, hroom⟩ := (isLeast_ranking hup he hd).1
    exact .inr ⟨s, hs, hroom ▸ Nat.le_add_right _ _⟩
  · exact .inl (ranking_isolated hup hv he hd)

end Longest

/-! ## What the ranks are -/

/-- The ranks are as small as the spans allow, sources apart, which are as low as their spans
allow. -/
structure Snug (n : Nat) (spans : List Span) (rank : Nat → Nat) : Prop where
  kept : ∀ s ∈ spans, rank s.upper + s.span ≤ rank s.lower
  /-- A node that spans lead to has the length of the longest way to it. -/
  longest : ∀ v < n, Entered spans v → IsGreatest {k | ∃ u, Way spans u v k} (rank v)
  least : ∀ other : Nat → Nat, (∀ s ∈ spans, other s.upper + s.span ≤ other s.lower) →
    ∀ v < n, Entered spans v → rank v ≤ other v
  /-- No other ranking that keeps the spans has fewer ranks. -/
  fewest : ∀ other : Nat → Nat, (∀ s ∈ spans, other s.upper + s.span ≤ other s.lower) →
    (Finset.range n).sup rank ≤ (Finset.range n).sup other
  source : ∀ v < n, ¬ Entered spans v → Departed spans v →
    IsLeast {k | ∃ s ∈ spans, s.upper = v ∧ k + s.span = rank s.lower} (rank v)
  isolated : ∀ v < n, ¬ Entered spans v → ¬ Departed spans v → rank v = 0
  top : 0 < n → ∃ v < n, rank v = 0
  /-- Every node that has a span has one without room to spare. -/
  tight : ∀ v < n, Entered spans v ∨ Departed spans v →
    ∃ s ∈ spans, (s.upper = v ∨ s.lower = v) ∧ rank s.upper + s.span = rank s.lower
  /-- No rank is larger than all spans together. -/
  bound : ∀ v < n, rank v ≤ (spans.map Span.span).sum

/-- Spans without a cycle get the smallest ranks that keep them, except that sources are pulled down
to the nearest node that they lead to. -/
theorem snug_ranking {n : Nat} {spans : List Span}
    (hb : ∀ s ∈ spans, s.upper < n ∧ s.lower < n) (hloop : ∀ s ∈ spans, s.upper ≠ s.lower)
    (h : Acyclic (spans.map Span.arc)) : Snug n spans ((ranking n spans).getD · 0) := by
  have hup := upward_of_acyclic hb hloop h
  constructor
  case kept => exact fun s hs => kept_ranking hup hs
  case longest =>
    rintro v - ⟨s, hs, rfl⟩
    rw [getD_ranking_lower hup hs]
    exact isGreatest_longestWays hup s.lower
  case least =>
    rintro other hother v - ⟨s, hs, rfl⟩
    exact ranking_le_of_kept hup hother hs
  case fewest =>
    intro other hother
    refine Finset.sup_le fun v hv => ?_
    rcases ranking_eq_zero_or_le hup (Finset.mem_range.mp hv) with hzero | ⟨s, hs, hle⟩
    · exact hzero.le.trans (Nat.zero_le _)
    · refine hle.trans ((ranking_le_of_kept hup hother hs).trans ?_)
      exact Finset.le_sup (f := other) (Finset.mem_range.mpr (hup.lower s hs))
  case source => exact fun v _ he hd => isLeast_ranking hup he hd
  case isolated => exact fun v hv he hd => ranking_isolated hup hv he hd
  case top => exact exists_ranking_eq_zero spans
  case tight =>
    intro v _ hspan
    by_cases he : Entered spans v
    · obtain ⟨s, hs, hlower, htight⟩ := exists_tight_ranking hup he
      exact ⟨s, hs, .inr hlower, htight⟩
    · obtain ⟨s, hs, hupper, htight⟩ := (isLeast_ranking hup he (hspan.resolve_left he)).1
      exact ⟨s, hs, .inl hupper, hupper ▸ htight⟩
  case bound =>
    intro v hv
    rcases ranking_eq_zero_or_le hup hv with hzero | ⟨s, hs, hle⟩
    · exact hzero.le.trans (Nat.zero_le _)
    · rw [getD_ranking_lower hup hs] at hle
      exact hle.trans (longestWays_le_sum hup s.lower)

end Tiered.Layering
