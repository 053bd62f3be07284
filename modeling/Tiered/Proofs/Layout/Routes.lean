import Mathlib.Analysis.SpecialFunctions.Complex.Arg
import Tiered.Proofs.Layout.Outlines
import Tiered.Proofs.Layout.Ranks
import Tiered.Proofs.Layout.Separation

/-!
# Edges meet the outlines of their ends

* `clipEnds_passesThrough`: a route between two centres is clipped to both outlines if its inner
  points are off both centres from rank to rank, and the nodes are apart from rank to rank;
* `exists_offLine_eq`: the centre line of every edge that is no loop is such a route;
* `layout_meets`: so the ends of every such edge lie on what its nodes are drawn with.
-/

namespace Tiered

variable {K : Type} [Field K] [LinearOrder K] [FloorRing K] [PlaneFunctions K]

namespace Direction

/-- Where a point is from rank to rank, the way that ranks run. -/
def across (d : Direction) (p : Point K) : K :=
  match d with
  | .topBottom => p.y
  | .bottomTop => -p.y
  | .leftRight => p.x
  | .rightLeft => -p.x

/-- How far a rectangle reaches from rank to rank. -/
def depth (d : Direction) (r : Rect K) : K := if d.isHorizontal then r.width else r.height

variable {d : Direction} {p q : Point K}

omit [FloorRing K] [PlaneFunctions K] in
theorem depth_pos (d : Direction) {r : Rect K} (hsize : 0 < r.width ∧ 0 < r.height) :
    0 < d.depth r := by
  unfold depth
  split
  · exact hsize.1
  · exact hsize.2

theorem across_onScreen (d : Direction) (along across : K) :
    d.across (Layout.onScreen d along across) = across := by
  cases d with
  | topBottom | leftRight => rfl
  | bottomTop | rightLeft => exact neg_neg across

omit [LinearOrder K] [FloorRing K] [PlaneFunctions K] in
theorem ne_of_across (h : d.across p ≠ d.across q) : p.x ≠ q.x ∨ p.y ≠ q.y := by
  cases d with
  | topBottom => exact .inr h
  | bottomTop => exact .inr fun hy => h (congrArg Neg.neg hy)
  | leftRight => exact .inl h
  | rightLeft => exact .inl fun hx => h (congrArg Neg.neg hx)

end Direction

namespace Layout

/-! ## Clipping both ends -/

section Clipping

variable [IsStrictOrderedRing K]

/-- Outlines stay within the depth of the rectangle. -/
theorem Outline.PassesThrough.across_within {o : Outline K} {p : Point K}
    (h : o.PassesThrough p) (hwidth : 0 < o.rect.width) (hheight : 0 < o.rect.height)
    (d : Direction) : |d.across p - d.across o.rect.center| ≤ half (d.depth o.rect) := by
  obtain ⟨hx, hy⟩ := h.within (half_pos hwidth) (half_pos hheight)
  cases d with
  | topBottom => exact hy
  | leftRight => exact hx
  | bottomTop =>
    change |-p.y - -o.rect.center.y| ≤ half o.rect.height
    rwa [neg_sub_neg, abs_sub_comm]
  | rightLeft =>
    change |-p.x - -o.rect.center.x| ≤ half o.rect.width
    rwa [neg_sub_neg, abs_sub_comm]

theorem clipLast_concat {L : Type} [Scalar L] (o : Outline L) (front : List (Point L))
    (p q : Point L) :
    clipLast o (front ++ [p, q]) = front ++ [p, clip o p] := by
  induction front with
  | nil => rfl
  | cons first front ih =>
    rw [List.cons_append, clipLast, ih, List.cons_append]
    -- What is behind the first point is longer than one point.
    intro second hsecond
    have hlength := congrArg List.length hsecond
    simp at hlength

/-- With points between the ends, each end is clipped towards its own neighbour. -/
theorem clipEnds_eq {L : Type} [Scalar L] (source target : Outline L) {a b first last : Point L}
    {front rest : List (Point L)} (hmids : first :: rest = front ++ [last]) :
    clipEnds source target (a :: (first :: rest ++ [b])) =
      clip source first :: (first :: rest ++ [clip target last]) := by
  have hlists : ∀ q : Point L, clip source first :: (first :: rest ++ [q]) =
      clip source first :: front ++ [last, q] := by
    intro q
    rw [hmids, List.append_assoc]
    rfl
  change clipLast target (clip source first :: (first :: rest ++ [b])) = _
  rw [hlists, clipLast_concat, hlists]

theorem clipEnds_mids {L : Type} [Scalar L] (source target : Outline L) (a b : Point L)
    {mids : List (Point L)} (h : mids ≠ []) :
    clipEnds source target (a :: (mids ++ [b])) =
      clip source (mids.head h) :: (mids ++ [clip target (mids.getLast h)]) := by
  obtain ⟨first, rest, rfl⟩ := List.exists_cons_of_ne_nil h
  exact clipEnds_eq source target (List.dropLast_append_getLast h).symm

section Ends

variable (hroots : ExactRoots K) (d : Direction) {source target : Outline K}
  (hsource : 0 < source.rect.width ∧ 0 < source.rect.height)
  (htarget : 0 < target.rect.width ∧ 0 < target.rect.height)

include hroots hsource in
theorem passesThrough_clip_of_across {p : Point K}
    (hne : d.across p ≠ d.across source.rect.center) : source.PassesThrough (clip source p) :=
  passesThrough_clip hroots hsource.1 hsource.2 (Direction.ne_of_across hne)

include hroots hsource htarget

/-- The second end aims at a point of the first outline, which does not reach as far as its own
centre. -/
theorem passesThrough_clip_clip
    (hapart : half (d.depth source.rect) + half (d.depth target.rect) ≤
      |d.across source.rect.center - d.across target.rect.center|) :
    source.PassesThrough (clip source target.rect.center) ∧
      target.PassesThrough (clip target (clip source target.rect.center)) := by
  have hs := half_pos (d.depth_pos hsource)
  have ht := half_pos (d.depth_pos htarget)
  have hfirst : source.PassesThrough (clip source target.rect.center) := by
    refine passesThrough_clip_of_across hroots d hsource fun heq => ?_
    rw [heq, sub_self, abs_zero] at hapart
    linarith
  refine ⟨hfirst, passesThrough_clip_of_across hroots d htarget fun heq => ?_⟩
  have hwithin := hfirst.across_within hsource.1 hsource.2 d
  rw [heq, abs_sub_comm] at hwithin
  linarith

/-- If the inner points of a route are off both its ends from rank to rank, and the ends are nodes
which are apart, both ends are put on the outlines of the nodes. -/
theorem clipEnds_passesThrough {mids : List (Point K)}
    (hmids : ∀ m ∈ mids, d.across m ≠ d.across source.rect.center ∧
      d.across m ≠ d.across target.rect.center)
    (hapart : half (d.depth source.rect) + half (d.depth target.rect) ≤
      |d.across source.rect.center - d.across target.rect.center|) :
    ∃ p q, clipEnds source target (source.rect.center :: (mids ++ [target.rect.center])) =
      p :: (mids ++ [q]) ∧ source.PassesThrough p ∧ target.PassesThrough q := by
  cases mids with
  | nil =>
    obtain ⟨hfirst, hlast⟩ := passesThrough_clip_clip hroots d hsource htarget hapart
    exact ⟨_, _, rfl, hfirst, hlast⟩
  | cons first rest =>
    obtain ⟨front, last, hconcat⟩ : ∃ front last, first :: rest = front ++ [last] :=
      ⟨_, _, (List.dropLast_append_getLast (List.cons_ne_nil first rest)).symm⟩
    have hmem : last ∈ first :: rest := by
      rw [hconcat]
      exact List.mem_append_right _ (List.mem_singleton_self last)
    refine ⟨_, _, clipEnds_eq source target hconcat, ?_, ?_⟩
    · exact passesThrough_clip_of_across hroots d hsource (hmids first List.mem_cons_self).1
    · exact passesThrough_clip_of_across hroots d htarget (hmids last hmem).2

end Ends

end Clipping

/-! ## Centre lines -/

section Lines

open Layering (Arc Layered)

variable {L : Type} [Scalar L] {P : L × L → Prop}

/-- Where the line between two ends is bent. -/
def bentAt (a b : L × L) (bend : L) : L × L := ((a.1 + b.1) / 2 + bend, (a.2 + b.2) / 2)

/-- Between its ends a line leads through the points it is given, or through its bend. -/
theorem exists_centreLine_eq {a b : L × L} {mids : List (L × L)} {bend : L}
    (hmids : ∀ m ∈ mids, P m) (hbent : P (bentAt a b bend)) :
    ∃ mids', centreLine (a :: (mids ++ [b])) bend = a :: (mids' ++ [b]) ∧ ∀ m ∈ mids', P m := by
  cases mids with
  | nil =>
    simp only [List.nil_append, centreLine]
    split
    · exact ⟨[], rfl, hmids⟩
    · exact ⟨[_], rfl, List.forall_mem_singleton.mpr hbent⟩
  | cons first rest =>
    refine ⟨first :: rest, ?_, hmids⟩
    cases rest <;> rfl

variable {g : Graph} {settings : Settings L} {sizes : List (L × L)} {arcs : List Arc}
  (harcs : List.Forall₂ (fun e arc => arcOf g e = .ok arc) g.edges arcs) {i : Nat}
  (hi : i < (plans g settings arcs).length)

include harcs

/-- The chain of an edge is the one of its arc. -/
theorem becomes_plan (hd : i < (downArcs g arcs).length) :
    Layered.Becomes (layeredGraph g arcs).rank (downArcs g arcs)[i]
      (plans g settings arcs)[i].chain := by
  have hc : i < (layeredGraph g arcs).chains.length := by
    rwa [layeredGraph, Layered.length_chains]
  have hplan : (plans g settings arcs)[i].chain = (layeredGraph g arcs).chains[i] := by
    simp [plans]
  rw [hplan]
  exact (List.forall₂_iff_get.mp (Layered.paths_ofEdges (leadDown_downArcs harcs))).2 i hd hc

/-- The centre line of an arc that leads down leads from its upper to its lower end, and in between
through nodes of ranks in between, or through its bend. -/
theorem exists_downLine_eq (hd : i < (downArcs g arcs).length) {d : Arc}
    (hget : (downArcs g arcs)[i] = some d)
    (hinner : ∀ w < (layeredGraph g arcs).size,
      (layeredGraph g arcs).rankOf d.1 < (layeredGraph g arcs).rankOf w →
      (layeredGraph g arcs).rankOf w < (layeredGraph g arcs).rankOf d.2 →
      P (centreOf g settings sizes arcs w))
    (hbent : P (bentAt (centreOf g settings sizes arcs d.1) (centreOf g settings sizes arcs d.2)
      (plans g settings arcs)[i].bend)) :
    ∃ chain mids, (plans g settings arcs)[i].chain = some chain ∧
      centreLine (chain.map (centreOf g settings sizes arcs)) (plans g settings arcs)[i].bend =
        centreOf g settings sizes arcs d.1 :: (mids ++ [centreOf g settings sizes arcs d.2]) ∧
      ∀ m ∈ mids, P m := by
  have hbecomes := becomes_plan harcs hi hd
  rw [hget] at hbecomes
  obtain ⟨chain, hchain, hpath⟩ := hbecomes
  obtain ⟨mids, rfl, hmids⟩ := hpath.exists_eq
  have hnodes : ∀ m ∈ mids.map (centreOf g settings sizes arcs), P m := by
    intro m hm
    obtain ⟨w, hw, rfl⟩ := List.mem_map.mp hm
    obtain ⟨hsize, habove, hbelow⟩ := hmids w hw
    exact hinner w hsize habove hbelow
  obtain ⟨mids', hline, hmids'⟩ := exists_centreLine_eq hnodes hbent
  refine ⟨_, mids', hchain, ?_, hmids'⟩
  rw [← hline, List.map_cons, List.map_append, List.map_singleton]

/-- The centre line of an edge that is no loop leads from the centre of its source to that of its
target, and in between through nodes of other ranks, or through its bend. -/
theorem exists_line_eq (ha : i < arcs.length) (hne : arcs[i].1 ≠ arcs[i].2)
    (hinner : ∀ w < (layeredGraph g arcs).size,
      (layeredGraph g arcs).rankOf w ≠ (layeredGraph g arcs).rankOf arcs[i].1 →
      (layeredGraph g arcs).rankOf w ≠ (layeredGraph g arcs).rankOf arcs[i].2 →
      P (centreOf g settings sizes arcs w))
    (hbent : ∀ d : Arc, d = arcs[i] ∨ d = arcs[i].swap →
      P (bentAt (centreOf g settings sizes arcs d.1) (centreOf g settings sizes arcs d.2)
        (plans g settings arcs)[i].bend)) :
    ∃ chain mids, (plans g settings arcs)[i].chain = some chain ∧
      (if (plans g settings arcs)[i].reversed then
        (centreLine (chain.map (centreOf g settings sizes arcs))
          (plans g settings arcs)[i].bend).reverse
        else centreLine (chain.map (centreOf g settings sizes arcs))
          (plans g settings arcs)[i].bend) =
        centreOf g settings sizes arcs arcs[i].1 ::
          (mids ++ [centreOf g settings sizes arcs arcs[i].2]) ∧
      ∀ m ∈ mids, P m := by
  have ht : i < (turned g arcs).length := by rwa [turned, length_feedback]
  have hd : i < (downArcs g arcs).length := by rwa [length_downArcs]
  have hget := getElem_downArcs hd ha ht
  rw [if_neg hne] at hget
  obtain ⟨-, -, hreversed⟩ := getElem_plans hi (harcs.length_eq ▸ ha) ha ht
  rw [hreversed]
  split
  · rename_i hflip
    rw [if_pos hflip] at hget
    obtain ⟨chain, mids, hchain, hline, hmids⟩ := exists_downLine_eq harcs hi hd hget
      (fun w hw habove hbelow => hinner w hw (Nat.ne_of_lt hbelow) (Nat.ne_of_gt habove))
      (hbent _ (.inr rfl))
    refine ⟨chain, mids.reverse, hchain, ?_, fun m hm => hmids m (List.mem_reverse.mp hm)⟩
    rw [hline]
    simp
  · rename_i hkeep
    rw [if_neg hkeep] at hget
    exact exists_downLine_eq harcs hi hd hget
      (fun w hw habove hbelow => hinner w hw (Nat.ne_of_gt habove) (Nat.ne_of_lt hbelow))
      (hbent _ (.inl rfl))

end Lines

/-! ## The edges of a layout -/

section Edges

open Layering (Arc Layered)

variable [IsStrictOrderedRing K] {g : Graph} {settings : Settings K} {sizes : List (K × K)}
  {arcs : List Arc}

omit [FloorRing K] [PlaneFunctions K] [IsStrictOrderedRing K] in
theorem heights_pos (settings : Settings K) (hsizes : ∀ s ∈ sizes, 0 < s.1 ∧ 0 < s.2) {v : Nat}
    (hv : v < sizes.length) : 0 < (heights settings sizes).getD v 0 := by
  obtain ⟨hwidth, hheight⟩ := hsizes _ (List.getElem_mem hv)
  rw [getD_heights hv]
  split
  · exact hwidth
  · exact hheight

omit [FloorRing K] [PlaneFunctions K] [IsStrictOrderedRing K] in
theorem heights_nonneg (settings : Settings K) (hsizes : ∀ s ∈ sizes, 0 < s.1 ∧ 0 < s.2)
    (v : Nat) : 0 ≤ (heights settings sizes).getD v 0 := by
  by_cases hv : v < sizes.length
  · exact (heights_pos settings hsizes hv).le
  · rw [getD_of_size_le (by simpa [heights] using hv)]

/-- The centres of nodes of different ranks are at least half of both heights apart. -/
theorem half_heights_le (sizes : List (K × K)) (hsep : 0 ≤ settings.rankSep) {v w : Nat}
    (hv : v < (layeredGraph g arcs).size) (hw : w < (layeredGraph g arcs).size)
    (hrank : (layeredGraph g arcs).rankOf v ≠ (layeredGraph g arcs).rankOf w) :
    half ((heights settings sizes).getD v 0 + (heights settings sizes).getD w 0) ≤
      |acrossOf g settings sizes arcs v - acrossOf g settings sizes arcs w| := by
  rcases Nat.lt_or_gt_of_ne hrank with hlt | hgt
  · have hapart := acrossOf_add_le sizes hsep hv hw hlt
    rw [abs_sub_comm]
    exact le_trans (by linarith) (le_abs_self _)
  · have hapart := acrossOf_add_le sizes hsep hw hv hgt
    rw [add_comm ((heights settings sizes).getD v 0)]
    exact le_trans (by linarith) (le_abs_self _)

omit [LinearOrder K] [FloorRing K] [PlaneFunctions K] [IsStrictOrderedRing K] in
/-- The ends of an edge that is no loop have different ranks. -/
theorem rankOf_ne (harcs : List.Forall₂ (fun e arc => arcOf g e = .ok arc) g.edges arcs) {i : Nat}
    (ha : i < arcs.length) (hne : arcs[i].1 ≠ arcs[i].2) :
    (layeredGraph g arcs).rankOf arcs[i].1 ≠ (layeredGraph g arcs).rankOf arcs[i].2 := by
  obtain ⟨hu, hv⟩ := arcs_lt harcs (List.getElem_mem ha)
  have he : i < g.edges.length := harcs.length_eq ▸ ha
  obtain ⟨hspan, -⟩ := spanOf_bounds (g.edges[i].attr? "minlen")
  have hapart := nodeRanks_apart (fun a ha => arcs_lt harcs ha) he ha
    (by rwa [turned, length_feedback]) hne
  rw [rankOf_layeredGraph hu, rankOf_layeredGraph hv]
  split at hapart <;> omega

/-- A bend stands in the middle between the ends. -/
theorem bentAt_off {a b : K × K} (hab : a.2 ≠ b.2) (bend : K) :
    (bentAt a b bend).2 ≠ a.2 ∧ (bentAt a b bend).2 ≠ b.2 := by
  have hmiddle : (bentAt a b bend).2 = half a.2 + half b.2 := half_add a.2 b.2
  have ha := half_add_half a.2
  have hb := half_add_half b.2
  rw [hmiddle]
  constructor
  · intro heq
    apply hab
    linarith
  · intro heq
    apply hab
    linarith

section Chain

variable (hsep : 0 ≤ settings.rankSep) (hsizes : ∀ s ∈ sizes, 0 < s.1 ∧ 0 < s.2)
  (hlength : sizes.length = g.nodes.length)

include hsep hsizes hlength

/-- A node is off all nodes of other ranks, and off all bends in them. -/
theorem acrossOf_ne {v w : Nat} (hv : v < g.nodes.length) (hw : w < (layeredGraph g arcs).size)
    (hrank : (layeredGraph g arcs).rankOf w ≠ (layeredGraph g arcs).rankOf v) :
    acrossOf g settings sizes arcs w ≠ acrossOf g settings sizes arcs v := by
  intro heq
  have hapart := half_heights_le sizes hsep hw (lt_size_layeredGraph arcs hv) hrank
  rw [heq, sub_self, abs_zero] at hapart
  have hheight := heights_pos settings hsizes (hlength.symm ▸ hv)
  have hother := heights_nonneg settings hsizes w
  exact absurd hapart (not_le.mpr (half_pos (add_pos_of_nonneg_of_pos hother hheight)))

variable (harcs : List.Forall₂ (fun e arc => arcOf g e = .ok arc) g.edges arcs)

include harcs

/-- The centre line of an edge that is no loop is off both its ends in between. -/
theorem exists_offLine_eq {i : Nat} (hi : i < (plans g settings arcs).length)
    (ha : i < arcs.length) (hne : arcs[i].1 ≠ arcs[i].2) :
    ∃ chain mids, (plans g settings arcs)[i].chain = some chain ∧
      (if (plans g settings arcs)[i].reversed then
        (centreLine (chain.map (centreOf g settings sizes arcs))
          (plans g settings arcs)[i].bend).reverse
        else centreLine (chain.map (centreOf g settings sizes arcs))
          (plans g settings arcs)[i].bend) =
        centreOf g settings sizes arcs arcs[i].1 ::
          (mids ++ [centreOf g settings sizes arcs arcs[i].2]) ∧
      ∀ m ∈ mids, m.2 ≠ (centreOf g settings sizes arcs arcs[i].1).2 ∧
        m.2 ≠ (centreOf g settings sizes arcs arcs[i].2).2 := by
  obtain ⟨hu, hv⟩ := arcs_lt harcs (List.getElem_mem ha)
  have hends := acrossOf_ne hsep hsizes hlength hu (lt_size_layeredGraph arcs hv)
    (rankOf_ne harcs ha hne).symm
  apply exists_line_eq harcs hi ha hne
  · intro w hw hsource htarget
    exact ⟨acrossOf_ne hsep hsizes hlength hu hw hsource,
      acrossOf_ne hsep hsizes hlength hv hw htarget⟩
  · rintro d (rfl | rfl)
    · exact bentAt_off hends.symm _
    · exact (bentAt_off hends _).symm

end Chain

/-- The node with a number, before the drawing is framed: it has a size, and its centre is where
routes to it lead. -/
structure Stands (g : Graph) (settings : Settings K) (sizes : List (K × K)) (arcs : List Arc)
    (v : Nat) (n : PlacedNode K) : Prop where
  node : (placedNodes g settings sizes arcs)[v]? = some n
  id : g.nodes[v]? = some n.id
  center : n.rect.center = onScreen settings.direction (centreOf g settings sizes arcs v).1
    (centreOf g settings sizes arcs v).2
  width : 0 < n.rect.width
  height : 0 < n.rect.height
  depth : settings.direction.depth n.rect = (heights settings sizes).getD v 0

omit [IsStrictOrderedRing K] in
theorem exists_stands (settings : Settings K) (arcs : List Arc)
    (hsizes : ∀ s ∈ sizes, 0 < s.1 ∧ 0 < s.2) (hlength : sizes.length = g.nodes.length)
    {v : Nat} (hv : v < g.nodes.length) : ∃ n, Stands g settings sizes arcs v n := by
  have hs : v < sizes.length := hlength ▸ hv
  obtain ⟨hwidth, hheight⟩ := hsizes _ (List.getElem_mem hs)
  refine ⟨placedNode g settings sizes arcs v g.nodes[v] sizes[v], ?_, ?_, ?_, hwidth, hheight, ?_⟩
  · simp [placedNodes, hv, hs]
  · exact List.getElem?_eq_getElem hv
  · rw [rect_placedNode]
    exact Rect.center_centered _ _ _
  · rw [getD_heights hs]
    rfl

omit [IsStrictOrderedRing K] in
theorem Stands.getD_outlines {v : Nat} {n : PlacedNode K}
    (hn : Stands g settings sizes arcs v n) (o : Outline K) :
    ((placedNodes g settings sizes arcs).map (·.outline)).toArray.getD v o = n.outline :=
  outline_of_getElem? hn.node o

omit [IsStrictOrderedRing K] in
theorem Stands.across_center {v : Nat} {n : PlacedNode K}
    (hn : Stands g settings sizes arcs v n) :
    settings.direction.across n.outline.rect.center = acrossOf g settings sizes arcs v := by
  change settings.direction.across n.rect.center = _
  rw [hn.center, Direction.across_onScreen]
  rfl

section Ends

variable (hsep : 0 ≤ settings.rankSep) (hsizes : ∀ s ∈ sizes, 0 < s.1 ∧ 0 < s.2)
  (hlength : sizes.length = g.nodes.length)
  (harcs : List.Forall₂ (fun e arc => arcOf g e = .ok arc) g.edges arcs) {i : Nat}
  (hi : i < (routedEdges g settings sizes arcs).length) (ha : i < arcs.length)
  (hne : arcs[i].1 ≠ arcs[i].2) {n m : PlacedNode K}
  (hn : Stands g settings sizes arcs arcs[i].1 n) (hm : Stands g settings sizes arcs arcs[i].2 m)

include hsep harcs hne hn hm in
theorem Stands.apart :
    half (settings.direction.depth n.outline.rect) +
        half (settings.direction.depth m.outline.rect) ≤
      |settings.direction.across n.outline.rect.center -
        settings.direction.across m.outline.rect.center| := by
  obtain ⟨hu, hv⟩ := arcs_lt harcs (List.getElem_mem ha)
  rw [hn.across_center, hm.across_center, ← half_add]
  change half (settings.direction.depth n.rect + settings.direction.depth m.rect) ≤ _
  rw [hn.depth, hm.depth]
  exact half_heights_le sizes hsep (lt_size_layeredGraph arcs hu) (lt_size_layeredGraph arcs hv)
    (rankOf_ne harcs ha hne)

include hsep hsizes hlength harcs hne hn hm

/-- A route is clipped from a line between the centres of its ends that is off both of them. -/
theorem exists_points_eq : ∃ mids : List (Point K),
    (routedEdges g settings sizes arcs)[i].points =
      clipEnds n.outline m.outline (n.outline.rect.center :: (mids ++ [m.outline.rect.center])) ∧
    ∀ c ∈ mids, settings.direction.across c ≠ settings.direction.across n.outline.rect.center ∧
      settings.direction.across c ≠ settings.direction.across m.outline.rect.center := by
  have hp : i < (plans g settings arcs).length := by rwa [length_routedEdges] at hi
  have he : i < g.edges.length := harcs.length_eq ▸ ha
  obtain ⟨-, harc, -⟩ := getElem_plans hp he ha (by rwa [turned, length_feedback])
  obtain ⟨chain, mids, hchain, hline, hoff⟩ :=
    exists_offLine_eq hsep hsizes hlength harcs hp ha hne
  refine ⟨mids.map fun c => onScreen settings.direction c.1 c.2, ?_, ?_⟩
  · simp only [getElem_routedEdges_eq hi hp, routeEdge, hchain, harc, hline, hn.getD_outlines,
      hm.getD_outlines]
    rw [List.map_cons, List.map_append, List.map_singleton, ← hn.center, ← hm.center]
    rfl
  · intro c hc
    obtain ⟨c, hmem, rfl⟩ := List.mem_map.mp hc
    rw [Direction.across_onScreen, hn.across_center, hm.across_center]
    exact hoff c hmem

/-- Before the drawing is framed, a route begins and ends on the outlines of its ends. -/
theorem passesThrough_routedEdges (hroots : ExactRoots K) :
    ∃ p q mids, (routedEdges g settings sizes arcs)[i].points = p :: (mids ++ [q]) ∧
      n.outline.PassesThrough p ∧ m.outline.PassesThrough q := by
  obtain ⟨mids, hpoints, hmids⟩ := exists_points_eq hsep hsizes hlength harcs hi ha hne hn hm
  obtain ⟨p, q, hclip, hfirst, hlast⟩ := clipEnds_passesThrough hroots settings.direction
    ⟨hn.width, hn.height⟩ ⟨hm.width, hm.height⟩ hmids (hn.apart hsep harcs ha hne hm)
  exact ⟨p, q, mids, hpoints.trans hclip, hfirst, hlast⟩

end Ends

omit [IsStrictOrderedRing K] in
/-- A loop is drawn beside its node. -/
theorem points_loop (harcs : List.Forall₂ (fun e arc => arcOf g e = .ok arc) g.edges arcs)
    {i : Nat} (hi : i < (routedEdges g settings sizes arcs).length) (ha : i < arcs.length)
    (hloop : arcs[i].1 = arcs[i].2) : (routedEdges g settings sizes arcs)[i].points ≠ [] := by
  have hp : i < (plans g settings arcs).length := by rwa [length_routedEdges] at hi
  have hd : i < (downArcs g arcs).length := by rwa [length_downArcs]
  have hget := getElem_downArcs hd ha (by rwa [turned, length_feedback])
  rw [if_pos hloop] at hget
  have hbecomes := becomes_plan harcs hp hd
  rw [hget] at hbecomes
  have hchain : (plans g settings arcs)[i].chain = none := hbecomes
  simp only [getElem_routedEdges_eq hi hp, routeEdge, hchain, selfLoop]
  split <;> exact List.cons_ne_nil _ _

end Edges

/-! ## The layout -/

section Framed

theorem getLast?_eq_position {points : List (Point K)} (h : points ≠ []) :
    points.getLast? = some (arrowhead points).position := by
  obtain ⟨front, tip, rfl⟩ : ∃ front tip, points = front ++ [tip] :=
    ⟨_, _, (List.dropLast_append_getLast h).symm⟩
  rw [List.getLast?_concat, arrowhead, List.reverse_append, List.reverse_singleton,
    List.singleton_append]
  dsimp only
  split <;> rfl

/-- An arrowhead stays at the last point when its edge is moved. -/
theorem getLast?_shift {r : RoutedEdge K} (harrow : r.arrowhead = arrowhead r.points)
    (hpoints : r.points ≠ []) (dx dy : K) :
    (r.shift dx dy).points.getLast? = some (r.shift dx dy).arrowhead.position := by
  simp only [RoutedEdge.shift]
  rw [List.getLast?_map, getLast?_eq_position hpoints, harrow]
  rfl

theorem Outline.PassesThrough.shift {n : PlacedNode K} {p : Point K}
    (h : n.outline.PassesThrough p) (dx dy : K) :
    (n.shift dx dy).outline.PassesThrough (p.shift dx dy) := by
  have hx : (p.shift dx dy).x - (n.rect.shift dx dy).center.x = p.x - n.rect.center.x := by
    rw [Rect.center_shift]
    exact add_sub_add_right_eq_sub _ _ _
  have hy : (p.shift dx dy).y - (n.rect.shift dx dy).center.y = p.y - n.rect.center.y := by
    rw [Rect.center_shift]
    exact add_sub_add_right_eq_sub _ _ _
  change n.shape.Bounds (half n.rect.width) (half n.rect.height)
    ((p.shift dx dy).x - (n.rect.shift dx dy).center.x)
    ((p.shift dx dy).y - (n.rect.shift dx dy).center.y)
  rw [hx, hy]
  exact h

/-- An edge runs from the outline of its source to that of its target. -/
def Meets (l : Layout K) (e : RoutedEdge K) : Prop :=
  ∃ a b p q, l.node? e.source = some a ∧ l.node? e.target = some b ∧ 2 ≤ e.points.length ∧
    e.points.head? = some p ∧ a.OnOutline p ∧ e.points.getLast? = some q ∧ b.OnOutline q

end Framed

section Arranged

open Layering (Arc)

variable [IsStrictOrderedRing K] {g : Graph} {settings : Settings K} {sizes : List (K × K)}
  {arcs : List Arc}

omit [IsStrictOrderedRing K] in
/-- A layout finds the node with a number, moved by the frame. -/
theorem Stands.node?_eq (hd : g.nodes.Nodup) (hlength : sizes.length = g.nodes.length) {dx dy : K}
    (hnodes : (arranged g settings sizes arcs).nodes =
      (placedNodes g settings sizes arcs).map (·.shift dx dy)) {v : Nat} {n : PlacedNode K}
    (hn : Stands g settings sizes arcs v n) :
    (arranged g settings sizes arcs).node? n.id = some (n.shift dx dy) := by
  have hmem : n.shift dx dy ∈ (arranged g settings sizes arcs).nodes := by
    rw [hnodes]
    exact List.mem_map_of_mem (List.mem_of_getElem? hn.node)
  exact find?_id (ids_arranged settings arcs hlength ▸ hd) hmem

omit [IsStrictOrderedRing K] in
/-- The ends of an edge in the layout are the nodes that its arc leads from and to. -/
theorem exists_ends (hd : g.nodes.Nodup) (hsizes : ∀ s ∈ sizes, 0 < s.1 ∧ 0 < s.2)
    (hlength : sizes.length = g.nodes.length)
    (harcs : List.Forall₂ (fun e arc => arcOf g e = .ok arc) g.edges arcs) {dx dy : K}
    (hnodes : (arranged g settings sizes arcs).nodes =
      (placedNodes g settings sizes arcs).map (·.shift dx dy))
    (hedges : (arranged g settings sizes arcs).edges =
      (routedEdges g settings sizes arcs).map (·.shift dx dy)) {i : Nat} {e : RoutedEdge K}
    (he : (arranged g settings sizes arcs).edges[i]? = some e) :
    ∃ (hi : i < (routedEdges g settings sizes arcs).length) (ha : i < arcs.length)
      (n m : PlacedNode K), e = (routedEdges g settings sizes arcs)[i].shift dx dy ∧
      Stands g settings sizes arcs arcs[i].1 n ∧ Stands g settings sizes arcs arcs[i].2 m ∧
      (arranged g settings sizes arcs).node? e.source = some (n.shift dx dy) ∧
      (arranged g settings sizes arcs).node? e.target = some (m.shift dx dy) := by
  rw [hedges, List.getElem?_map, Option.map_eq_some_iff] at he
  obtain ⟨x, hx, rfl⟩ := he
  obtain ⟨hi, rfl⟩ := List.getElem?_eq_some_iff.mp hx
  have hi' : i < g.edges.length := by
    rwa [length_routedEdges, length_plans harcs.length_eq.symm] at hi
  have ha : i < arcs.length := harcs.length_eq ▸ hi'
  obtain ⟨hu, hv⟩ := arcs_lt harcs (List.getElem_mem ha)
  obtain ⟨n, hn⟩ := exists_stands settings arcs hsizes hlength hu
  obtain ⟨m, hm⟩ := exists_stands settings arcs hsizes hlength hv
  obtain ⟨hnodeu, hnodev, -⟩ := arcOf_eq_ok (getElem_arcs harcs hi' ha)
  obtain ⟨hsource, htarget, -⟩ := getElem_routedEdges hi hi' ha
  have hidn : n.id = (routedEdges g settings sizes arcs)[i].source := by
    rw [hsource]
    exact Option.some.inj (hn.id.symm.trans hnodeu)
  have hidm : m.id = (routedEdges g settings sizes arcs)[i].target := by
    rw [htarget]
    exact Option.some.inj (hm.id.symm.trans hnodev)
  exact ⟨hi, ha, n, m, rfl, hn, hm, hidn ▸ hn.node?_eq hd hlength hnodes,
    hidm ▸ hm.node?_eq hd hlength hnodes⟩

theorem meets_arranged (hroots : ExactRoots K) (hd : g.nodes.Nodup) (hsep : 0 ≤ settings.rankSep)
    (hsizes : ∀ s ∈ sizes, 0 < s.1 ∧ 0 < s.2) (hlength : sizes.length = g.nodes.length)
    (harcs : List.Forall₂ (fun e arc => arcOf g e = .ok arc) g.edges arcs) {e : RoutedEdge K}
    (he : e ∈ (arranged g settings sizes arcs).edges) :
    e.points.getLast? = some e.arrowhead.position ∧
      (e.source ≠ e.target → (arranged g settings sizes arcs).Meets e) := by
  obtain ⟨dx, dy, hnodes, hedges⟩ := exists_arranged_eq g settings sizes arcs
  obtain ⟨i, hget⟩ := List.mem_iff_getElem?.mp he
  obtain ⟨hi, ha, n, m, rfl, hn, hm, hnoden, hnodem⟩ :=
    exists_ends hd hsizes hlength harcs hnodes hedges hget
  have hi' : i < g.edges.length := harcs.length_eq ▸ ha
  obtain ⟨hsource, htarget, harrow⟩ := getElem_routedEdges hi hi' ha
  by_cases hloop : arcs[i].1 = arcs[i].2
  · refine ⟨getLast?_shift harrow (points_loop harcs hi ha hloop) dx dy,
      fun hne => absurd ?_ hne⟩
    obtain ⟨hnodeu, hnodev, -⟩ := arcOf_eq_ok (getElem_arcs harcs hi' ha)
    rw [hloop, hnodev] at hnodeu
    exact hsource.trans ((Option.some.inj hnodeu).symm.trans htarget.symm)
  · obtain ⟨p, q, mids, hpoints, hfirst, hlast⟩ :=
      passesThrough_routedEdges hsep hsizes hlength harcs hi ha hloop hn hm hroots
    have hshift : ((routedEdges g settings sizes arcs)[i].shift dx dy).points =
        p.shift dx dy :: mids.map (·.shift dx dy) ++ [q.shift dx dy] := by
      simp [RoutedEdge.shift, hpoints]
    refine ⟨getLast?_shift harrow (by simp [hpoints]) dx dy, fun _ =>
      ⟨n.shift dx dy, m.shift dx dy, p.shift dx dy, q.shift dx dy, hnoden, hnodem,
        ?_, ?_, ?_, ?_, ?_⟩⟩
    · simp [hshift]
    · rw [hshift]
      rfl
    · exact PlacedNode.onOutline hn.width hn.height (hfirst.shift dx dy)
    · rw [hshift, List.getLast?_concat]
    · exact PlacedNode.onOutline hm.width hm.height (hlast.shift dx dy)

end Arranged
end Layout

/-- **Edges meet the outlines of their ends.** With exact arithmetic and sizes that are not zero,
every edge of the graph that is no loop leads from the line its source is drawn with to the line its
target is drawn with, and every arrowhead is at the last point of its edge. -/
theorem Graph.layout_meets [IsStrictOrderedRing K] (hroots : ExactRoots K) {g : Graph}
    {settings : Settings K} {sizer : Sizer K} {l : Layout K} (hd : g.nodes.Nodup)
    (hsep : 0 ≤ settings.rankSep)
    (hsizer : ∀ id ∈ g.nodes,
      0 < (sizer id (g.labelLines id)).1 ∧ 0 < (sizer id (g.labelLines id)).2)
    (h : g.layout settings sizer = .ok l) :
    (l.nodes.map (·.id) = g.nodes ∧ l.edges.map (·.edge) = g.edges) ∧
      ∀ e ∈ l.edges, e.points.getLast? = some e.arrowhead.position ∧
        (e.source ≠ e.target → l.Meets e) := by
  refine ⟨Graph.layout_complete h, ?_⟩
  obtain ⟨-, ⟨-, rfl⟩ | ⟨sizes, arcs, hsizes, harcs, rfl⟩⟩ := Graph.layout_eq_ok h
  · exact fun e he => nomatch he
  · intro e he
    refine Layout.meets_arranged hroots hd hsep (fun s hs => ?_) hsizes.length_eq.symm harcs he
    obtain ⟨v, hv, rfl⟩ := List.mem_iff_getElem.mp hs
    have hg : v < g.nodes.length := hsizes.length_eq.symm ▸ hv
    have hsize := (List.forall₂_iff_get.mp hsizes).2 v hg hv
    rw [List.get_eq_getElem, List.get_eq_getElem] at hsize
    rw [(Layout.sizeOf_eq_ok hsize).1]
    exact hsizer _ (List.getElem_mem hg)

/-- The functions of the plane among the real numbers. -/
noncomputable instance PlaneFunctions.real : PlaneFunctions ℝ where
  sqrt := Real.sqrt
  hypot x y := Real.sqrt (x * x + y * y)
  heading dy dx := Complex.arg ⟨dx, dy⟩ * 180 / Real.pi

theorem exactRoots_real : ExactRoots ℝ :=
  fun x hx => ⟨Real.sqrt_nonneg x, Real.mul_self_sqrt hx⟩

/-- Two parallel edges, one that leads back, and a long one, between four shapes. -/
def shapes : Graph :=
  { directed := true
    nodes := ["a", "b", "c", "d"]
    edges := [⟨"a", "b", ∅⟩, ⟨"a", "b", ∅⟩, ⟨"b", "a", ∅⟩, ⟨"b", "c", ∅⟩,
      ⟨"c", "d", .ofList [("minlen", "2")]⟩]
    nodeAttrs := .ofList [("a", .ofList [("shape", "ellipse")]),
      ("b", .ofList [("shape", "diamond")]), ("c", .ofList [("shape", "circle")])] }

theorem Graph.layout_meets_shapes :
    ExactRoots ℝ ∧ shapes.nodes.Nodup ∧ 0 ≤ (Settings.standard : Settings ℝ).rankSep ∧
      ∃ l : Layout ℝ, shapes.layout .standard (fun _ _ => (40, 20)) = .ok l ∧
        (l.nodes.map (·.id) = shapes.nodes ∧ l.edges.map (·.edge) = shapes.edges) ∧
          ∀ e ∈ l.edges, e.points.getLast? = some e.arrowhead.position ∧
            (e.source ≠ e.target → l.Meets e) := by
  have hd : shapes.nodes.Nodup := by decide
  have hsep : 0 ≤ (Settings.standard : Settings ℝ).rankSep := Nat.cast_nonneg 50
  have hsizer : ∀ id ∈ shapes.nodes, (0 : ℝ) < 40 ∧ (0 : ℝ) < 20 := fun _ _ => by norm_num
  obtain ⟨l, hlayout⟩ := shapes.exists_layout (.standard : Settings ℝ) (fun _ _ => (40, 20)) rfl
    fun id hid =>
      ⟨Scalar.isLength_iff.mpr (hsizer id hid).1.le, Scalar.isLength_iff.mpr (hsizer id hid).2.le⟩
  exact ⟨exactRoots_real, hd, hsep, l, hlayout,
    Graph.layout_meets exactRoots_real hd hsep hsizer hlayout⟩

end Tiered
