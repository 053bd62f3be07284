import Tiered.Proofs.Layering.Bends
import Tiered.Proofs.Layout.Rooms

/-!
# Routes of long edges

An edge over several ranks has a bend in each rank between its ends.

* `Layout.Follows`: the route of such an edge leads through the bends of its chain, and only its
  ends are clipped (`follows_routedEdges`), so it leads down (`Follows.descends`);
* `Layout.threaded_arranged`: what this and the room in a rank say of the layout, read off its nodes
  and edges.
-/

namespace Tiered

variable {K : Type} [Field K] [LinearOrder K] [FloorRing K] [PlaneFunctions K]

/-- The points of an edge from its upper to its lower end. -/
def RoutedEdge.downward {K : Type} (e : RoutedEdge K) : List (Point K) :=
  if e.reversed then e.points.reverse else e.points

namespace Layout

open Layering (Arc Layered)

variable {g : Graph} {settings : Settings K} {sizes : List (K × K)} {arcs : List Arc}

/-! ## Routes through bends -/

section Routes

omit [Field K] [LinearOrder K] [FloorRing K] [PlaneFunctions K] in
/-- A line of several segments is not bent once more. -/
theorem centreLine_of_long {K : Type} [Scalar K] {points : List (K × K)} (h : 2 < points.length)
    (bend : K) : centreLine points bend = points := by
  match points with
  | [] | [_] | [_, _] => simp at h
  | _ :: _ :: _ :: _ => rfl

/-- Clipping does not depend on the end that a route is drawn from. -/
theorem reverse_clipEnds (source target : Outline K) (a b : Point K) {mids : List (Point K)}
    (h : mids ≠ []) :
    (clipEnds target source (b :: (mids.reverse ++ [a]))).reverse =
      clipEnds source target (a :: (mids ++ [b])) := by
  rw [clipEnds_mids _ _ _ _ h, clipEnds_mids _ _ _ _ (List.reverse_ne_nil_iff.mpr h),
    List.head_reverse, List.getLast_reverse]
  simp

/-- Between two others, points in order are in order with them. -/
theorem pairwise_between {α : Type} {r : α → α → Prop} [IsTrans α r] {a b x : α} {mids : List α}
    (hx : x ∈ mids) (hmids : mids.Pairwise r) (ha : ∀ y ∈ mids, r a y) (hb : ∀ y ∈ mids, r y b) :
    (a :: (mids ++ [b])).Pairwise r := by
  apply List.pairwise_cons.mpr
  constructor
  · intro y hy
    rcases List.mem_append.mp hy with hy | hy
    · exact ha y hy
    · rw [List.mem_singleton.mp hy]
      exact IsTrans.trans _ _ _ (ha x hx) (hb x hx)
  · apply List.pairwise_append.mpr
    refine ⟨hmids, List.pairwise_singleton _ _, fun y hy z hz => ?_⟩
    rw [List.mem_singleton.mp hz]
    exact hb y hy

/-- A route along a chain, which leads down from one node to another: through the places of all
bends, with each end clipped towards the bend next to it. -/
structure Follows (g : Graph) (settings : Settings K) (sizes : List (K × K)) (arcs : List Arc)
    (x : RoutedEdge K) (chain : List Nat) (d : Arc) (n m : PlacedNode K) : Prop where
  path : Layered.Path (layeredGraph g arcs).rank d chain
  upper : Stands g settings sizes arcs d.1 n
  lower : Stands g settings sizes arcs d.2 m
  downward : ∃ first ∈ Layered.inner (some chain), ∃ last ∈ Layered.inner (some chain),
    x.downward = clip n.outline (spot g settings sizes arcs first) ::
      ((Layered.inner (some chain)).map (spot g settings sizes arcs) ++
        [clip m.outline (spot g settings sizes arcs last)])

/-- Drawn from its upper end, every edge over several segments leads through the places of its
chain. -/
theorem downward_routedEdges
    (harcs : List.Forall₂ (fun e arc => arcOf g e = .ok arc) g.edges arcs) {i : Nat}
    (hi : i < (routedEdges g settings sizes arcs).length) (ha : i < arcs.length)
    (hd : i < (downArcs g arcs).length) {d : Arc} (hget : (downArcs g arcs)[i] = some d)
    {mids : List Nat} (hmids : mids ≠ []) (hp : i < (plans g settings arcs).length)
    (hchain : (plans g settings arcs)[i].chain = some (d.1 :: (mids ++ [d.2])))
    {n m : PlacedNode K} (hn : Stands g settings sizes arcs d.1 n)
    (hm : Stands g settings sizes arcs d.2 m) :
    (routedEdges g settings sizes arcs)[i].downward =
      clipEnds n.outline m.outline ((d.1 :: (mids ++ [d.2])).map (spot g settings sizes arcs)) := by
  have ht : i < (turned g arcs).length := by rwa [turned, length_feedback]
  obtain ⟨-, harc, hreversed⟩ := getElem_plans hp (harcs.length_eq ▸ ha) ha ht
  have hlong : 2 < (d.1 :: (mids ++ [d.2])).length := by
    have hpos := List.length_pos_iff.mpr hmids
    simp only [List.length_cons, List.length_append, List.length_nil]
    omega
  have hline : centreLine ((d.1 :: (mids ++ [d.2])).map (centreOf g settings sizes arcs))
      (plans g settings arcs)[i].bend =
        (d.1 :: (mids ++ [d.2])).map (centreOf g settings sizes arcs) :=
    centreLine_of_long (by rwa [List.length_map]) _
  rw [getElem_routedEdges_eq hi hp]
  simp only [RoutedEdge.downward, routeEdge, hchain, harc, hreversed, hline]
  rw [getElem_downArcs hd ha ht] at hget
  split at hget
  · cases hget
  split at hget
  -- Turned around, the route is drawn from its lower end, and read backwards here.
  · rename_i hflip
    cases hget
    simp only [Prod.fst_swap, Prod.snd_swap] at hn hm ⊢
    simp only [hflip, if_true, hn.getD_outlines, hm.getD_outlines, List.map_reverse,
      map_centreOf]
    rw [List.map_cons, List.map_append, List.map_singleton, List.reverse_cons, List.reverse_append,
      List.reverse_singleton, List.singleton_append, List.cons_append,
      reverse_clipEnds _ _ _ _ (mt List.map_eq_nil_iff.mp hmids)]
  · rename_i hkeep
    cases hget
    simp only [hkeep, Bool.false_eq_true, if_false, hn.getD_outlines, hm.getD_outlines,
      map_centreOf]

/-- Every edge over several segments is routed along its chain. -/
theorem follows_routedEdges
    (harcs : List.Forall₂ (fun e arc => arcOf g e = .ok arc) g.edges arcs) {i : Nat}
    (hi : i < (routedEdges g settings sizes arcs).length) (ha : i < arcs.length)
    (hd : i < (downArcs g arcs).length) {d : Arc} (hget : (downArcs g arcs)[i] = some d)
    {chain : List Nat} (hp : i < (plans g settings arcs).length)
    (hchain : (plans g settings arcs)[i].chain = some chain)
    (hpath : Layered.Path (layeredGraph g arcs).rank d chain) (hlong : 2 < chain.length)
    {n m : PlacedNode K} (hn : Stands g settings sizes arcs d.1 n)
    (hm : Stands g settings sizes arcs d.2 m) :
    Follows g settings sizes arcs (routedEdges g settings sizes arcs)[i] chain d n m := by
  refine ⟨hpath, hn, hm, ?_⟩
  obtain ⟨mids, rfl, -⟩ := hpath.exists_eq
  have hinner : Layered.inner (some (d.1 :: (mids ++ [d.2]))) = mids := by simp [Layered.inner]
  have hmids : mids ≠ [] := by
    rintro rfl
    simp at hlong
  rw [hinner]
  refine ⟨mids.head hmids, List.head_mem hmids, mids.getLast hmids, List.getLast_mem hmids, ?_⟩
  rw [downward_routedEdges harcs hi ha hd hget hmids hp hchain hn hm, List.map_cons,
    List.map_append, List.map_singleton, clipEnds_mids _ _ _ _ (mt List.map_eq_nil_iff.mp hmids),
    List.head_map, List.getLast_map]

/-- Bands of different ranks do not overlap. -/
theorem Lengths.band_le [IsStrictOrderedRing K] (h : Lengths settings sizes) {v w : Nat}
    (hv : v < (layeredGraph g arcs).size) (hw : w < (layeredGraph g arcs).size)
    (hrank : (layeredGraph g arcs).rankOf v < (layeredGraph g arcs).rankOf w) :
    acrossOf g settings sizes arcs v + half ((heights settings sizes).getD v 0) ≤
      acrossOf g settings sizes arcs w - half ((heights settings sizes).getD w 0) := by
  have hapart := acrossOf_add_le sizes h.rankSep hv hw hrank
  have hsep := h.rankSep
  rw [half_add] at hapart
  linarith

/-- An end that is clipped towards another rank stays within the band of its node. -/
theorem Stands.across_clip [IsStrictOrderedRing K] (hroots : ExactRoots K)
    (h : Lengths settings sizes) {v w : Nat} {n : PlacedNode K}
    (hn : Stands g settings sizes arcs v n) (hw : w < (layeredGraph g arcs).size)
    (hrank : (layeredGraph g arcs).rankOf w ≠ (layeredGraph g arcs).rankOf v) :
    |settings.direction.across (clip n.outline (spot g settings sizes arcs w)) -
        acrossOf g settings sizes arcs v| ≤ half ((heights settings sizes).getD v 0) := by
  obtain ⟨-, -, hg, -⟩ := exists_placedNode_eq hn.node
  have hne : settings.direction.across (spot g settings sizes arcs w) ≠
      settings.direction.across n.outline.rect.center := by
    rw [across_spot, hn.across_center]
    intro heq
    have hapart := half_heights_le sizes h.rankSep hw (lt_size_layeredGraph arcs hg) hrank
    rw [heq, sub_self, abs_zero, half_add] at hapart
    have hother := half_nonneg (h.height_nonneg w)
    have hpos := half_pos (settings.direction.depth_pos ⟨hn.width, hn.height⟩)
    rw [hn.depth] at hpos
    linarith
  have hwithin := (passesThrough_clip_of_across hroots settings.direction ⟨hn.width, hn.height⟩
    hne).across_within hn.width hn.height settings.direction
  have hdepth : settings.direction.depth n.outline.rect = (heights settings sizes).getD v 0 :=
    hn.depth
  rwa [hn.across_center, hdepth] at hwithin

namespace Follows

variable {x : RoutedEdge K} {chain : List Nat} {d : Arc} {n m : PlacedNode K}
  (h : Follows g settings sizes arcs x chain d n m)

include h

theorem length_downward : x.downward.length = chain.length := by
  obtain ⟨first, hfirst, last, -, hdownward⟩ := h.downward
  have hpos := List.length_pos_of_mem hfirst
  have hlength := Layered.length_inner chain
  rw [hdownward, List.length_cons, List.length_append, List.length_singleton, List.length_map]
  omega

/-- There is one bend in each rank between the ends. -/
theorem exists_bend {k : Nat} (hpos : 0 < k) (hk : k + 1 < chain.length) :
    ∃ v ∈ Layered.inner (some chain),
      (layeredGraph g arcs).rankOf v = (layeredGraph g arcs).rankOf d.1 + k ∧
      x.downward[k]? = some (spot g settings sizes arcs v) := by
  obtain ⟨first, -, last, -, hdownward⟩ := h.downward
  obtain ⟨j, rfl⟩ := Nat.exists_eq_add_of_le' hpos
  have hget := Layered.getElem?_inner hk
  have hlength := Layered.length_inner chain
  refine ⟨chain[j + 1], List.mem_of_getElem? hget, h.path.rank (j + 1) (by omega), ?_⟩
  rw [hdownward, List.getElem?_cons_succ,
    List.getElem?_append_left (by rw [List.length_map]; omega), List.getElem?_map, hget]
  rfl

variable [IsStrictOrderedRing K]

/-- Such a route leads down: its ends are clipped within their bands, which are above and below all
bends. -/
theorem descends (hroots : ExactRoots K) (hlengths : Lengths settings sizes) :
    x.downward.Pairwise fun p q =>
      settings.direction.across p ≤ settings.direction.across q := by
  obtain ⟨first, hfirst, last, hlast, hdownward⟩ := h.downward
  obtain ⟨mids, rfl, -⟩ := h.path.exists_eq
  have hinner : Layered.inner (some (d.1 :: (mids ++ [d.2]))) = mids := by simp [Layered.inner]
  rw [hinner] at hfirst hlast hdownward
  have hascending := h.path.ascending
  obtain ⟨habove, hascending⟩ := List.pairwise_cons.mp hascending
  obtain ⟨hmids, -, hbelow⟩ := List.pairwise_append.mp hascending
  have hin : ∀ {w}, w ∈ mids → w < (layeredGraph g arcs).size :=
    fun hw => h.path.bound _ (by simp [hw])
  have habove : ∀ w ∈ mids, (layeredGraph g arcs).rankOf d.1 < (layeredGraph g arcs).rankOf w :=
    fun w hw => habove w (List.mem_append_left _ hw)
  have hbelow : ∀ w ∈ mids, (layeredGraph g arcs).rankOf w < (layeredGraph g arcs).rankOf d.2 :=
    fun w hw => hbelow w hw d.2 (List.mem_singleton_self _)
  have hupper : ∀ w ∈ mids,
      settings.direction.across (clip n.outline (spot g settings sizes arcs first)) ≤
        settings.direction.across (spot g settings sizes arcs w) := by
    intro w hw
    have hclip := h.upper.across_clip hroots hlengths (hin hfirst) (habove first hfirst).ne'
    have hband := hlengths.band_le (h.path.bound d.1 (by simp)) (hin hw) (habove w hw)
    have hheight := half_nonneg (hlengths.height_nonneg w)
    rw [across_spot]
    linarith [(abs_le.mp hclip).2]
  have hlower : ∀ w ∈ mids, settings.direction.across (spot g settings sizes arcs w) ≤
      settings.direction.across (clip m.outline (spot g settings sizes arcs last)) := by
    intro w hw
    have hclip := h.lower.across_clip hroots hlengths (hin hlast) (hbelow last hlast).ne
    have hband := hlengths.band_le (hin hw) (h.path.bound d.2 (by simp)) (hbelow w hw)
    have hheight := half_nonneg (hlengths.height_nonneg w)
    rw [across_spot]
    linarith [(abs_le.mp hclip).1]
  have hspots : (mids.map (spot g settings sizes arcs)).Pairwise fun p q =>
      settings.direction.across p ≤ settings.direction.across q := by
    apply List.pairwise_map.mpr
    refine hmids.imp_of_mem fun {v w} hv hw hvw => ?_
    have hband := hlengths.band_le (hin hv) (hin hw) hvw
    have hheightv := half_nonneg (hlengths.height_nonneg v)
    have hheightw := half_nonneg (hlengths.height_nonneg w)
    rw [across_spot, across_spot]
    linarith
  rw [hdownward]
  refine pairwise_between (List.mem_map_of_mem hfirst) hspots ?_ ?_
  · exact List.forall_mem_map.mpr hupper
  · exact List.forall_mem_map.mpr hlower

end Follows

end Routes

/-! ## The layout -/

/-- The ends of an edge are `s` ranks apart, and the upper one is in rank `r`. -/
def Reaches (l : Layout K) (e : RoutedEdge K) (r s : Nat) : Prop :=
  ∃ a b, l.node? e.source = some a ∧ l.node? e.target = some b ∧
    (a.rank = r ∧ b.rank = r + s ∨ b.rank = r ∧ a.rank = r + s)

/-- A point of the route of an edge that belongs to a rank between its ends. -/
def BendsAt (l : Layout K) (e : RoutedEdge K) (r : Nat) (p : Point K) : Prop :=
  ∃ upper s k, l.Reaches e upper s ∧ 0 < k ∧ k < s ∧ r = upper + k ∧ e.downward[k]? = some p

/-- Long edges are threaded through the ranks between their ends. -/
structure Threaded (settings : Settings K) (l : Layout K) (top : K) : Prop where
  /-- The centre line of a rank is where its nodes have their centres. -/
  centred : ∀ n ∈ l.nodes,
    l.direction.across n.rect.center = l.rankCentre settings.rankSep top n.rank
  turned : ∀ e ∈ l.edges, ∀ a b, l.node? e.source = some a → l.node? e.target = some b →
    (e.reversed = true ↔ b.rank < a.rank)
  length : ∀ e ∈ l.edges, ∀ r s, 2 ≤ s → l.Reaches e r s → e.points.length = s + 1
  descends : ∀ e ∈ l.edges, ∀ r s, 2 ≤ s → l.Reaches e r s →
    e.downward.Pairwise fun p q => l.direction.across p ≤ l.direction.across q
  bends : ∀ e ∈ l.edges, ∀ r s, l.Reaches e r s → ∀ k, 0 < k → k < s →
    ∃ p, e.downward[k]? = some p ∧
      l.direction.across p = l.rankCentre settings.rankSep top (r + k)
  clear : ∀ e ∈ l.edges, ∀ r p, l.BendsAt e r p → ∀ n ∈ l.nodes, ¬ n.rect.Surrounds p
  apart : ∀ (i j : Nat) e f, l.edges[i]? = some e → l.edges[j]? = some f → i ≠ j →
    ∀ r p q, l.BendsAt e r p → l.BendsAt f r q →
      settings.edgeSep ≤ |l.direction.along p - l.direction.along q|

section Arranged

theorem downward_shift (x : RoutedEdge K) (dx dy : K) :
    (x.shift dx dy).downward = x.downward.map (·.shift dx dy) := by
  unfold RoutedEdge.downward
  cases hreversed : x.reversed with
  | true => simp only [RoutedEdge.shift, hreversed, if_true, List.map_reverse]
  | false => simp only [RoutedEdge.shift, hreversed, Bool.false_eq_true, if_false]

theorem length_downward {K : Type} (x : RoutedEdge K) : x.downward.length = x.points.length := by
  unfold RoutedEdge.downward
  split
  · exact List.length_reverse
  · rfl

/-- An edge between nodes of different ranks has its arc, perhaps turned around. -/
theorem exists_downArc {i : Nat} (hd : i < (downArcs g arcs).length) (ha : i < arcs.length)
    (hne : arcs[i].1 ≠ arcs[i].2) :
    ∃ d, (downArcs g arcs)[i] = some d ∧ (d = arcs[i] ∨ d = arcs[i].swap) := by
  rw [getElem_downArcs hd ha (by rwa [turned, length_feedback]), if_neg hne]
  split
  · exact ⟨_, rfl, .inr rfl⟩
  · exact ⟨_, rfl, .inl rfl⟩

variable {dx dy : K} (hd : g.nodes.Nodup) (hsizes : ∀ s ∈ sizes, 0 < s.1 ∧ 0 < s.2)
  (hlength : sizes.length = g.nodes.length)
  (harcs : List.Forall₂ (fun e arc => arcOf g e = .ok arc) g.edges arcs)
  (hnodes : (arranged g settings sizes arcs).nodes =
    (placedNodes g settings sizes arcs).map (·.shift dx dy))
  (hedges : (arranged g settings sizes arcs).edges =
    (routedEdges g settings sizes arcs).map (·.shift dx dy))

include hd hsizes hlength harcs hnodes hedges

/-- A long edge is routed along its chain. -/
theorem exists_follows {i : Nat} {e : RoutedEdge K}
    (he : (arranged g settings sizes arcs).edges[i]? = some e) {r s : Nat} (hs : 2 ≤ s)
    (hreach : (arranged g settings sizes arcs).Reaches e r s) :
    ∃ x chain d n m, e = x.shift dx dy ∧ (layeredGraph g arcs).chains[i]? = some (some chain) ∧
      Follows g settings sizes arcs x chain d n m ∧ (layeredGraph g arcs).rankOf d.1 = r ∧
      chain.length = s + 1 := by
  obtain ⟨hi, ha, n, m, rfl, hn, hm, hsource, htarget⟩ :=
    exists_ends hd hsizes hlength harcs hnodes hedges he
  obtain ⟨a, b, hsource', htarget', hranks⟩ := hreach
  obtain rfl := Option.some.inj (hsource.symm.trans hsource')
  obtain rfl := Option.some.inj (htarget.symm.trans htarget')
  change n.rank = r ∧ m.rank = r + s ∨ m.rank = r ∧ n.rank = r + s at hranks
  rw [hn.rank, hm.rank] at hranks
  have hne : arcs[i].1 ≠ arcs[i].2 := by
    intro heq
    rw [heq] at hranks
    omega
  have hi' : i < (downArcs g arcs).length := by rwa [length_downArcs]
  have hp : i < (plans g settings arcs).length := by rwa [length_routedEdges] at hi
  obtain ⟨d, hget, hends⟩ := exists_downArc hi' ha hne
  have hbecomes := becomes_plan harcs hp hi'
  rw [hget] at hbecomes
  obtain ⟨chain, hchain, hpath⟩ := hbecomes
  have hchains : (layeredGraph g arcs).chains[i]? = some (some chain) := by
    have hc : i < (layeredGraph g arcs).chains.length := by
      rwa [layeredGraph, Layered.length_chains]
    rw [List.getElem?_eq_getElem hc, ← hchain]
    simp [plans]
  have htwo := hpath.two
  have hlast : (layeredGraph g arcs).rankOf d.2 + 1 =
      (layeredGraph g arcs).rankOf d.1 + chain.length := hpath.rank_last
  rcases hends with rfl | rfl
  · have hrank : (layeredGraph g arcs).rankOf arcs[i].1 = r ∧ chain.length = s + 1 := by omega
    exact ⟨_, chain, _, n, m, rfl, hchains, follows_routedEdges harcs hi ha hi' hget hp hchain hpath
      (by omega) hn hm, hrank⟩
  · have hrank : (layeredGraph g arcs).rankOf arcs[i].2 = r ∧ chain.length = s + 1 := by
      simp only [Prod.fst_swap, Prod.snd_swap] at hlast
      omega
    exact ⟨_, chain, _, m, n, rfl, hchains, follows_routedEdges harcs hi ha hi' hget hp hchain hpath
      (by omega) hm hn, hrank⟩

/-- A bend is where a virtual node of the chain is placed. -/
theorem exists_bend_eq {i : Nat} {e : RoutedEdge K}
    (he : (arranged g settings sizes arcs).edges[i]? = some e) {r : Nat} {p : Point K}
    (hp : (arranged g settings sizes arcs).BendsAt e r p) :
    ∃ chain v, (layeredGraph g arcs).chains[i]? = some chain ∧ v ∈ Layered.inner chain ∧
      v < (layeredGraph g arcs).size ∧ g.nodes.length ≤ v ∧ (layeredGraph g arcs).rankOf v = r ∧
      p = (spot g settings sizes arcs v).shift dx dy := by
  obtain ⟨upper, s, k, hreach, hpos, hk, rfl, hp⟩ := hp
  obtain ⟨x, chain, d, n, m, rfl, hchain, hfollows, hupper, hcount⟩ :=
    exists_follows hd hsizes hlength harcs hnodes hedges he (by omega) hreach
  obtain ⟨v, hv, hrank, hget⟩ := hfollows.exists_bend hpos (by omega)
  have hvirtual := (Layered.inner_ofEdges (nodeRanks g arcs) (downArcs g arcs)).1 _
    (List.mem_of_getElem? hchain) v hv
  rw [size_nodeRanks] at hvirtual
  rw [downward_shift, List.getElem?_map, hget] at hp
  exact ⟨some chain, v, hchain, hv, hfollows.path.bound v (Layered.mem_of_mem_inner hv), hvirtual,
    hupper ▸ hrank, (Option.some.inj hp).symm⟩

/-- An edge is turned around if its target is above its source. -/
theorem reversed_iff {i : Nat} {e : RoutedEdge K}
    (he : (arranged g settings sizes arcs).edges[i]? = some e) {a b : PlacedNode K}
    (hsource : (arranged g settings sizes arcs).node? e.source = some a)
    (htarget : (arranged g settings sizes arcs).node? e.target = some b) :
    e.reversed = true ↔ b.rank < a.rank := by
  obtain ⟨hi, ha, n, m, rfl, hn, hm, hsource', htarget'⟩ :=
    exists_ends hd hsizes hlength harcs hnodes hedges he
  obtain rfl := Option.some.inj (hsource'.symm.trans hsource)
  obtain rfl := Option.some.inj (htarget'.symm.trans htarget)
  have hp : i < (plans g settings arcs).length := by rwa [length_routedEdges] at hi
  have he' : i < g.edges.length := harcs.length_eq ▸ ha
  have ht : i < (turned g arcs).length := by rwa [turned, length_feedback]
  obtain ⟨-, -, hreversed⟩ := getElem_plans hp he' ha ht
  obtain ⟨hu, hv⟩ := arcs_lt harcs (List.getElem_mem ha)
  rw [getElem_routedEdges_eq hi hp]
  change (plans g settings arcs)[i].reversed = true ↔ m.rank < n.rank
  rw [hreversed, hn.rank, hm.rank, rankOf_layeredGraph hu, rankOf_layeredGraph hv]
  by_cases hloop : arcs[i].1 = arcs[i].2
  · rw [turned_loop ht ha hloop, hloop]
    simp
  · have hapart := nodeRanks_apart (fun a ha => arcs_lt harcs ha) he' ha ht hloop
    obtain ⟨hspan, -⟩ := spanOf_bounds (g.edges[i].attr? "minlen")
    cases hturned : (turned g arcs)[i] with
    | true =>
      rw [if_pos hturned] at hapart
      simp only [true_iff]
      omega
    | false =>
      rw [if_neg (by rw [hturned]; exact Bool.false_ne_true)] at hapart
      simp only [Bool.false_eq_true, false_iff]
      omega

omit hd harcs hedges in
theorem exists_stands_of_mem {n : PlacedNode K} (hn : n ∈ (arranged g settings sizes arcs).nodes) :
    ∃ v m, Stands g settings sizes arcs v m ∧ n = m.shift dx dy := by
  rw [hnodes] at hn
  obtain ⟨m, hm, rfl⟩ := List.mem_map.mp hn
  obtain ⟨v, hv⟩ := List.mem_iff_getElem?.mp hm
  obtain ⟨-, -, hg, -⟩ := exists_placedNode_eq hv
  obtain ⟨m', hm'⟩ := exists_stands settings arcs hsizes hlength hg
  obtain rfl := Option.some.inj (hv.symm.trans hm'.node)
  exact ⟨v, m, hm', rfl⟩

omit hd harcs hedges in
/-- Nodes have their centres on the centre line of their rank. -/
theorem across_center_arranged {n : PlacedNode K}
    (hn : n ∈ (arranged g settings sizes arcs).nodes) :
    settings.direction.across n.rect.center = (arranged g settings sizes arcs).rankCentre
      settings.rankSep (settings.direction.across ⟨dx, dy⟩) n.rank := by
  obtain ⟨v, m, hm, rfl⟩ := exists_stands_of_mem hsizes hlength hnodes hn
  obtain ⟨-, -, hg, -⟩ := exists_placedNode_eq hm.node
  have hcenter : (m.shift dx dy).rect.center = m.rect.center.shift dx dy :=
    Rect.center_shift _ _ _
  have hacross : settings.direction.across m.rect.center = acrossOf g settings sizes arcs v :=
    hm.across_center
  have hrank : (m.shift dx dy).rank = (layeredGraph g arcs).rankOf v := hm.rank
  rw [hcenter, Direction.across_shift, hacross, hrank,
    acrossOf_eq_rankCentre hlength (lt_size_layeredGraph arcs hg)]

section LongEdge

variable {i : Nat} {e : RoutedEdge K}
  (he : (arranged g settings sizes arcs).edges[i]? = some e) {r s : Nat}
  (hreach : (arranged g settings sizes arcs).Reaches e r s)

include he hreach

theorem length_points_of_reaches (hs : 2 ≤ s) : e.points.length = s + 1 := by
  obtain ⟨x, chain, d, n, m, rfl, -, hfollows, -, hcount⟩ :=
    exists_follows hd hsizes hlength harcs hnodes hedges he hs hreach
  rw [← length_downward, downward_shift, List.length_map, hfollows.length_downward, hcount]

theorem descends_of_reaches [IsStrictOrderedRing K] (hroots : ExactRoots K)
    (hlengths : Lengths settings sizes) (hs : 2 ≤ s) :
    e.downward.Pairwise fun p q =>
      settings.direction.across p ≤ settings.direction.across q := by
  obtain ⟨x, chain, d, n, m, rfl, -, hfollows, -, -⟩ :=
    exists_follows hd hsizes hlength harcs hnodes hedges he hs hreach
  rw [downward_shift]
  apply List.pairwise_map.mpr
  refine (hfollows.descends hroots hlengths).imp fun {p q} hpq => ?_
  rw [Direction.across_shift, Direction.across_shift]
  linarith

theorem bend_of_reaches {k : Nat} (hpos : 0 < k) (hk : k < s) :
    ∃ p, e.downward[k]? = some p ∧
      settings.direction.across p = (arranged g settings sizes arcs).rankCentre settings.rankSep
        (settings.direction.across ⟨dx, dy⟩) (r + k) := by
  obtain ⟨x, chain, d, n, m, rfl, -, hfollows, rfl, hcount⟩ :=
    exists_follows hd hsizes hlength harcs hnodes hedges he (by omega) hreach
  obtain ⟨v, hv, hrank, hget⟩ := hfollows.exists_bend hpos (by omega)
  have hsize := hfollows.path.bound v (Layered.mem_of_mem_inner hv)
  refine ⟨(spot g settings sizes arcs v).shift dx dy, ?_, ?_⟩
  · rw [downward_shift, List.getElem?_map, hget]
    rfl
  · rw [Direction.across_shift, across_spot, acrossOf_eq_rankCentre hlength hsize, hrank]

end LongEdge

/-- Bends of different edges are different virtual nodes, so they keep the gap. -/
theorem bends_apart [IsStrictOrderedRing K] (hlengths : Lengths settings sizes) {i j : Nat}
    {e f : RoutedEdge K} (hi : (arranged g settings sizes arcs).edges[i]? = some e)
    (hj : (arranged g settings sizes arcs).edges[j]? = some f) (hij : i ≠ j) {r : Nat}
    {p q : Point K} (hp : (arranged g settings sizes arcs).BendsAt e r p)
    (hq : (arranged g settings sizes arcs).BendsAt f r q) :
    settings.edgeSep ≤ |settings.direction.along p - settings.direction.along q| := by
  obtain ⟨c, v, hc, hv, hsizev, hbendv, hrankv, rfl⟩ :=
    exists_bend_eq hd hsizes hlength harcs hnodes hedges hi hp
  obtain ⟨c', w, hc', hw, hsizew, hbendw, hrankw, rfl⟩ :=
    exists_bend_eq hd hsizes hlength harcs hnodes hedges hj hq
  rw [Direction.along_shift, Direction.along_shift, add_sub_add_right_eq_sub, along_spot,
    along_spot]
  refine hlengths.edgeSep_le hsizev hsizew hbendv hbendw ?_ (hrankv.trans hrankw.symm)
  rintro rfl
  have hapart := (Layered.inner_ofEdges (nodeRanks g arcs) (downArcs g arcs)).2
  obtain ⟨hi', rfl⟩ := List.getElem?_eq_some_iff.mp hc
  obtain ⟨hj', rfl⟩ := List.getElem?_eq_some_iff.mp hc'
  rcases Nat.lt_or_gt_of_ne hij with hlt | hgt
  · exact List.pairwise_iff_getElem.mp hapart i j hi' hj' hlt hv hw
  · exact List.pairwise_iff_getElem.mp hapart j i hj' hi' hgt hw hv

theorem bend_clear [IsStrictOrderedRing K] (hlengths : Lengths settings sizes) {i : Nat}
    {e : RoutedEdge K} (he : (arranged g settings sizes arcs).edges[i]? = some e) {r : Nat}
    {p : Point K} (hp : (arranged g settings sizes arcs).BendsAt e r p) {n : PlacedNode K}
    (hn : n ∈ (arranged g settings sizes arcs).nodes) : ¬ n.rect.Surrounds p := by
  obtain ⟨chain, v, -, -, hsize, hbend, -, rfl⟩ :=
    exists_bend_eq hd hsizes hlength harcs hnodes hedges he hp
  obtain ⟨w, m, hm, rfl⟩ := exists_stands_of_mem hsizes hlength hnodes hn
  exact hlengths.not_surrounds hm hsize hbend dx dy

end Arranged

/-- What is said of nodes and bends holds wherever the drawing is moved to. -/
theorem threaded_arranged [IsStrictOrderedRing K] (hroots : ExactRoots K) (hd : g.nodes.Nodup)
    (h : Lengths settings sizes) (hsizes : ∀ s ∈ sizes, 0 < s.1 ∧ 0 < s.2)
    (hlength : sizes.length = g.nodes.length)
    (harcs : List.Forall₂ (fun e arc => arcOf g e = .ok arc) g.edges arcs) :
    ∃ top, Threaded settings (arranged g settings sizes arcs) top := by
  obtain ⟨dx, dy, hnodes, hedges⟩ := exists_arranged_eq g settings sizes arcs
  refine ⟨settings.direction.across ⟨dx, dy⟩, {
    centred := fun n hn => across_center_arranged hsizes hlength hnodes hn
    turned := fun e he a b ha hb => ?_
    length := fun e he r s hs hreach => ?_
    descends := fun e he r s hs hreach => ?_
    bends := fun e he r s hreach k hpos hk => ?_
    clear := fun e he r p hp n hn => ?_
    apart := fun i j e f hi hj hij r p q hp hq =>
      bends_apart hd hsizes hlength harcs hnodes hedges h hi hj hij hp hq }⟩
  all_goals obtain ⟨i, hi⟩ := List.mem_iff_getElem?.mp he
  · exact reversed_iff hd hsizes hlength harcs hnodes hedges hi ha hb
  · exact length_points_of_reaches hd hsizes hlength harcs hnodes hedges hi hreach hs
  · exact descends_of_reaches hd hsizes hlength harcs hnodes hedges hi hreach hroots h hs
  · exact bend_of_reaches hd hsizes hlength harcs hnodes hedges hi hreach hpos hk
  · exact bend_clear hd hsizes hlength harcs hnodes hedges h hi hp hn

theorem sizes_pos {sizer : Sizer K}
    (h : List.Forall₂ (fun id size => sizeOf g sizer id = .ok size) g.nodes sizes)
    (hsizer : ∀ id ∈ g.nodes,
      0 < (sizer id (g.labelLines id)).1 ∧ 0 < (sizer id (g.labelLines id)).2) :
    ∀ s ∈ sizes, 0 < s.1 ∧ 0 < s.2 := by
  intro s hs
  obtain ⟨id, hid, hsize⟩ := exists_sizeOf_eq h s hs
  rw [(sizeOf_eq_ok hsize).1]
  exact hsizer id hid

end Layout

/-- **Long edges are threaded through the ranks.** With exact arithmetic, separations that are not
negative and sizes that are not zero, an edge of the graph between nodes that are two ranks or more
apart has one point in each rank between them, on the centre line of the rank, outside all nodes and
a gap away from those of other edges; its route never turns back from rank to rank. -/
theorem Graph.layout_threaded [IsStrictOrderedRing K] (hroots : ExactRoots K) {g : Graph}
    {settings : Settings K} {sizer : Sizer K} {l : Layout K} (hd : g.nodes.Nodup)
    (hnode : 0 ≤ settings.nodeSep) (hedge : 0 ≤ settings.edgeSep) (hrank : 0 ≤ settings.rankSep)
    (hsizer : ∀ id ∈ g.nodes,
      0 < (sizer id (g.labelLines id)).1 ∧ 0 < (sizer id (g.labelLines id)).2)
    (h : g.layout settings sizer = .ok l) :
    (l.nodes.map (·.id) = g.nodes ∧ l.edges.map (·.edge) = g.edges) ∧
      ∃ top, l.Threaded settings top := by
  refine ⟨Graph.layout_complete h, ?_⟩
  obtain ⟨-, ⟨-, rfl⟩ | ⟨sizes, arcs, hsizes, harcs, rfl⟩⟩ := Graph.layout_eq_ok h
  · exact ⟨0, {
      centred := fun n hn => nomatch hn
      turned := fun e he => nomatch he
      length := fun e he => nomatch he
      descends := fun e he => nomatch he
      bends := fun e he => nomatch he
      clear := fun e he => nomatch he
      apart := fun i j e f hi => nomatch hi }⟩
  · have hpos := Layout.sizes_pos hsizes hsizer
    have hlengths : Layout.Lengths settings sizes :=
      ⟨hnode, hedge, hrank, fun s hs => ⟨(hpos s hs).1.le, (hpos s hs).2.le⟩⟩
    exact Layout.threaded_arranged hroots hd hlengths hpos hsizes.length_eq.symm harcs

/-- A long edge and one that leads back, both beside a node. -/
def detours : Graph :=
  { directed := true
    nodes := ["a", "b", "c"]
    edges := [⟨"a", "c", ∅⟩, ⟨"c", "a", ∅⟩, ⟨"a", "b", ∅⟩, ⟨"b", "c", ∅⟩] }

/-- Both have a bend beside the node. -/
example : (detours.layout (.standard : Settings ℚ) fun _ _ => (40, 20)).toOption.map (fun l =>
    (l.edges.map fun e => (e.reversed, e.downward.length), l.nodes.map (·.rank))) =
      some ([(false, 3), (true, 3), (false, 2), (false, 2)], [0, 1, 2]) := by decide +kernel

theorem Graph.layout_threaded_detours :
    ExactRoots ℝ ∧ detours.nodes.Nodup ∧ 0 ≤ (Settings.standard : Settings ℝ).nodeSep ∧
      0 ≤ (Settings.standard : Settings ℝ).edgeSep ∧
      0 ≤ (Settings.standard : Settings ℝ).rankSep ∧
      ∃ l : Layout ℝ, detours.layout .standard (fun _ _ => (40, 20)) = .ok l ∧
        (l.nodes.map (·.id) = detours.nodes ∧ l.edges.map (·.edge) = detours.edges) ∧
          ∃ top, l.Threaded .standard top := by
  have hd : detours.nodes.Nodup := by decide
  have hnode : 0 ≤ (Settings.standard : Settings ℝ).nodeSep := Nat.cast_nonneg 50
  have hedge : 0 ≤ (Settings.standard : Settings ℝ).edgeSep := Nat.cast_nonneg 20
  have hrank : 0 ≤ (Settings.standard : Settings ℝ).rankSep := Nat.cast_nonneg 50
  have hsizer : ∀ id ∈ detours.nodes, (0 : ℝ) < 40 ∧ (0 : ℝ) < 20 := fun _ _ => by norm_num
  obtain ⟨l, hlayout⟩ := detours.exists_layout (.standard : Settings ℝ) (fun _ _ => (40, 20)) rfl
    fun id hid =>
      ⟨Scalar.isLength_iff.mpr (hsizer id hid).1.le, Scalar.isLength_iff.mpr (hsizer id hid).2.le⟩
  exact ⟨exactRoots_real, hd, hnode, hedge, hrank, l, hlayout,
    Graph.layout_threaded exactRoots_real hd hnode hedge hrank hsizer hlayout⟩

end Tiered
