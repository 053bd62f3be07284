import Mathlib.Data.List.Basic
import Mathlib.Data.List.Range
import Tiered.Proofs.Exact
import Tiered.Proofs.Layering.Bends
import Tiered.Proofs.Layout.Stages

/-!
# Parallel edges are spread evenly

Edges of one segment that have both ends in common are bent to the side.

* `Groups`: such edges put together under their common arc, as a table holds them, in whatever order
  it lists its groups; `Gathers.spreadGroups_eq`: spreading group by group gives the bends that
  `spread` tells edge by edge, so the order does not matter;
* `getElem_spread`: the bend of an edge, by the edges of its group before it and in all;
* `evenly`: the bends of a group, a gap apart and in balance;
* `spread_evenly`: this for the edges of any layered graph.
-/

namespace Tiered.Layout

open Layering (Arc Layered LeadDown)

/-! ## Groups of edges -/

/-- Groups of edges, each under the arc that its members have in common. -/
abbrev Groups := List (Arc × List Nat)

/-- Puts an edge last in the group of its arc. -/
def Groups.push (a : Arc) (i : Nat) : Groups → Groups
  | [] => [(a, [i])]
  | (b, members) :: rest =>
    if b = a then (b, members ++ [i]) :: rest else (b, members) :: push a i rest

/-- The groups of all edges that have an arc, which are numbered in the order of declaration. -/
def Groups.ofArcs (arcs : List (Option Arc)) : Groups :=
  arcs.zipIdx.foldl (fun groups e => match e.1 with
    | some a => groups.push a e.2
    | none => groups) []

/-- Each arc that edges have has one group, of these edges in the order of declaration. -/
structure Gathers (arcs : List (Option Arc)) (groups : Groups) : Prop where
  nodup : (groups.map Prod.fst).Nodup
  keys : ∀ a, a ∈ groups.map Prod.fst ↔ some a ∈ arcs
  members : ∀ g ∈ groups, g.2 = arcs.idxsOf (some g.1)

section Gathering

variable {arcs : List (Option Arc)} {groups : Groups} {a : Arc} {i : Nat}

theorem map_fst_push : (groups.push a i).map Prod.fst =
    if a ∈ groups.map Prod.fst then groups.map Prod.fst else groups.map Prod.fst ++ [a] := by
  induction groups with
  | nil => rfl
  | cons g rest ih =>
    obtain ⟨b, members⟩ := g
    unfold Groups.push
    by_cases hb : b = a
    · simp [hb]
    · rw [if_neg hb, List.map_cons, ih]
      simp only [List.map_cons, List.mem_cons, Ne.symm hb, false_or]
      split <;> rfl

theorem mem_push (hd : (groups.map Prod.fst).Nodup) {g : Arc × List Nat}
    (hg : g ∈ groups.push a i) : g ∈ groups ∧ g.1 ≠ a ∨
      (∃ members, (a, members) ∈ groups ∧ g = (a, members ++ [i])) ∨
      a ∉ groups.map Prod.fst ∧ g = (a, [i]) := by
  induction groups with
  | nil => exact .inr (.inr ⟨List.not_mem_nil, List.mem_singleton.mp hg⟩)
  | cons first rest ih =>
    obtain ⟨b, members⟩ := first
    rw [List.map_cons, List.nodup_cons] at hd
    unfold Groups.push at hg
    by_cases hb : b = a
    · subst hb
      rw [if_pos rfl] at hg
      rcases List.mem_cons.mp hg with rfl | hrest
      · exact .inr (.inl ⟨members, List.mem_cons_self, rfl⟩)
      · refine .inl ⟨List.mem_cons_of_mem _ hrest, ?_⟩
        exact fun heq => hd.1 (List.mem_map.mpr ⟨g, hrest, heq⟩)
    · rw [if_neg hb] at hg
      rcases List.mem_cons.mp hg with rfl | hg
      · exact .inl ⟨List.mem_cons_self, hb⟩
      · rcases ih hd.2 hg with ⟨hmem, hne⟩ | ⟨old, hmem, rfl⟩ | ⟨hnew, rfl⟩
        · exact .inl ⟨List.mem_cons_of_mem _ hmem, hne⟩
        · exact .inr (.inl ⟨old, List.mem_cons_of_mem _ hmem, rfl⟩)
        · refine .inr (.inr ⟨?_, rfl⟩)
          rw [List.map_cons, List.mem_cons, not_or]
          exact ⟨Ne.symm hb, hnew⟩

/-- An edge with an arc goes into the group of the arc. -/
theorem Gathers.push (h : Gathers arcs groups) (a : Arc) :
    Gathers (arcs ++ [some a]) (groups.push a arcs.length) := by
  refine ⟨?_, fun b => ?_, fun g hg => ?_⟩
  · rw [map_fst_push]
    split
    · exact h.nodup
    · rename_i hnew
      rw [← List.concat_eq_append]
      exact h.nodup.concat hnew
  · rw [map_fst_push, List.mem_append, List.mem_singleton, Option.some.injEq, ← h.keys b]
    split
    · rename_i hold
      constructor
      · exact .inl
      · rintro (hb | rfl)
        · exact hb
        · exact hold
    · rw [List.mem_append, List.mem_singleton]
  · rw [List.idxsOf_append]
    rcases mem_push h.nodup hg with ⟨hmem, hne⟩ | ⟨members, hmem, rfl⟩ | ⟨hnew, rfl⟩
    · rw [h.members g hmem]
      simp [Ne.symm hne]
    · have hmembers : members = arcs.idxsOf (some a) := h.members _ hmem
      simp [hmembers]
    · have hnone : arcs.idxsOf (some a) = [] := by
        apply List.idxsOf_eq_nil_iff.mpr
        intro x hx
        rw [h.keys] at hnew
        exact beq_eq_false_iff_ne.mpr fun hxa => hnew (hxa ▸ hx)
      simp [hnone]

/-- An edge without an arc goes into no group. -/
theorem Gathers.skip (h : Gathers arcs groups) : Gathers (arcs ++ [none]) groups := by
  refine ⟨h.nodup, fun b => ?_, fun g hg => ?_⟩
  · simp [h.keys b]
  · rw [h.members g hg, List.idxsOf_append]
    simp

theorem gathers_ofArcs (arcs : List (Option Arc)) : Gathers arcs (Groups.ofArcs arcs) := by
  induction arcs using List.reverseRecOn with
  | nil => exact ⟨List.nodup_nil, by simp [Groups.ofArcs], by simp [Groups.ofArcs]⟩
  | append_singleton arcs arc ih =>
    have hstep : Groups.ofArcs (arcs ++ [arc]) = match arc with
        | some a => (Groups.ofArcs arcs).push a arcs.length
        | none => Groups.ofArcs arcs := by
      simp only [Groups.ofArcs, List.zipIdx_append, List.foldl_append, Nat.zero_add]
      cases arc <;> rfl
    rw [hstep]
    cases arc with
    | none => exact ih.skip
    | some a => exact ih.push a

/-- The order of the groups is left open. -/
theorem Gathers.perm (h : Gathers arcs groups) {order : Groups} (hp : order.Perm groups) :
    Gathers arcs order :=
  ⟨(hp.map Prod.fst).nodup_iff.mpr h.nodup, fun a => (hp.map Prod.fst).mem_iff.trans (h.keys a),
    fun g hg => h.members g (hp.mem_iff.mp hg)⟩

end Gathering

/-! ## Spreading group by group -/

section Spreading

variable {K : Type} [Scalar K] {arcs : List (Option Arc)} {groups : Groups}

/-- The bends of a group of `count` edges. -/
def evenBend (edgeSep : K) (count place : Nat) : K :=
  ((place : K) - ((count - 1 : Nat) : K) / 2) * edgeSep

/-- Gives the members of a group their bends. -/
def spreadGroup (edgeSep : K) (bends : Array K) (members : List Nat) : Array K :=
  members.zipIdx.foldl
    (fun bends e => bends.setIfInBounds e.1 (evenBend edgeSep members.length e.2)) bends

/-- The bends of `count` edges, of which those in no group have none. -/
def spreadGroups (edgeSep : K) (count : Nat) (groups : Groups) : Array K :=
  groups.foldl (fun bends g => spreadGroup edgeSep bends g.2) (Array.replicate count 0)

/-- What is written for the members of a group. -/
def groupEntries (edgeSep : K) (members : List Nat) : List (Nat × K) :=
  members.zipIdx.map fun e => (e.1, evenBend edgeSep members.length e.2)

theorem spreadGroup_eq (edgeSep : K) (bends : Array K) (members : List Nat) :
    spreadGroup edgeSep bends members = writes bends (groupEntries edgeSep members) := by
  rw [writes, groupEntries, List.foldl_map]
  rfl

theorem foldl_spreadGroup (edgeSep : K) (groups : Groups) (bends : Array K) :
    groups.foldl (fun bends g => spreadGroup edgeSep bends g.2) bends =
      writes bends (groups.flatMap fun g => groupEntries edgeSep g.2) := by
  induction groups generalizing bends with
  | nil => rfl
  | cons g rest ih => rw [List.foldl_cons, ih, spreadGroup_eq, List.flatMap_cons, writes_append]

theorem map_fst_groupEntries (edgeSep : K) (members : List Nat) :
    (groupEntries edgeSep members).map Prod.fst = members := by
  rw [groupEntries, List.map_map]
  exact List.zipIdx_map_fst _ _

/-- Groups have no edges in common. -/
theorem Gathers.nodup_members (h : Gathers arcs groups) : (groups.flatMap Prod.snd).Nodup := by
  refine List.nodup_flatMap.mpr ⟨fun g hg => ?_, ?_⟩
  · rw [h.members g hg]
    exact List.nodup_idxsOf
  · refine (List.pairwise_map.mp h.nodup).imp_of_mem fun {g k} hg hk hne i hig hik => ?_
    rw [h.members g hg, List.mem_idxsOf_iff_exists_getElem_pos] at hig
    rw [h.members k hk, List.mem_idxsOf_iff_exists_getElem_pos] at hik
    obtain ⟨hi, hgi⟩ := hig
    obtain ⟨_, hki⟩ := hik
    exact hne (Option.some.inj ((eq_of_beq hgi).symm.trans (eq_of_beq hki)))

/-- The place of an edge in its group is the number of members before it. -/
theorem getElem?_idxsOf {α : Type} [BEq α] [LawfulBEq α] {xs : List α} {x : α} {i : Nat}
    (hi : i < xs.length) (hx : xs[i] = x) : (xs.idxsOf x)[(xs.take i).count x]? = some i := by
  have hbeq : (xs[i] == x) = true := beq_iff_eq.mpr hx
  have hlt : xs.countBefore x i < (xs.idxsOf x).length := by
    rw [List.length_idxsOf]
    exact List.countBefore_lt_count_of_lt_length_of_beq hbeq
  rw [← List.countBefore_eq_count_take, List.getElem?_eq_getElem hlt,
    List.getElem_idxOf_eq_idxOfNth, List.idxOfNth_countBefore_of_lt_length_of_beq hbeq]

/-- The bend of an edge by the edges with its arc: those before it, and all. -/
theorem getElem_spread (edgeSep : K) (all earlier arcs : List (Option Arc)) {i : Nat}
    (hi : i < arcs.length) (hs : i < (spread edgeSep all earlier arcs).length) :
    (spread edgeSep all earlier arcs)[i] = match arcs[i] with
      | none => 0
      | some a => evenBend edgeSep (all.count (some a))
          (earlier.count (some a) + (arcs.take i).count (some a)) := by
  induction arcs generalizing earlier i with
  | nil => exact absurd hi (Nat.not_lt_zero _)
  | cons arc rest ih =>
    cases i with
    | zero => cases arc <;> rfl
    | succ i =>
      have hrest : i < rest.length := Nat.lt_of_succ_lt_succ hi
      cases arc with
      | none =>
        simp only [spread, List.getElem_cons_succ, List.take_succ_cons]
        rw [ih earlier hrest (by rwa [length_spread])]
        cases rest[i] with
        | none => rfl
        | some a => simp
      | some b =>
        simp only [spread, List.getElem_cons_succ, List.take_succ_cons]
        rw [ih (some b :: earlier) hrest (by rwa [length_spread])]
        cases rest[i] with
        | none => rfl
        | some a =>
          simp only [List.count_cons]
          rw [Nat.add_right_comm, Nat.add_assoc]

/-- **The order of the groups does not matter**: group by group or edge by edge, edges get the same
bends. -/
theorem Gathers.spreadGroups_eq (h : Gathers arcs groups) (edgeSep : K) :
    (spreadGroups edgeSep arcs.length groups).toList = spread edgeSep arcs [] arcs := by
  have hplaces : (groups.flatMap fun g => groupEntries edgeSep g.2).map Prod.fst =
      groups.flatMap Prod.snd := by
    rw [List.map_flatMap]
    simp only [map_fst_groupEntries]
  have hsize : (spreadGroups edgeSep arcs.length groups).size = arcs.length := by
    rw [spreadGroups, foldl_spreadGroup, size_writes, Array.size_replicate]
  apply List.ext_getElem
  · rw [Array.length_toList, hsize, length_spread]
  intro i hi hs
  have hi : i < arcs.length := by rwa [Array.length_toList, hsize] at hi
  rw [getElem_spread edgeSep arcs [] arcs hi hs, Array.getElem_toList,
    ← getD_of_lt (by rwa [hsize]) 0, spreadGroups, foldl_spreadGroup]
  cases harc : arcs[i] with
  | none =>
    rw [getD_writes_of_notMem, getD_replicate]
    rw [hplaces]
    intro hmem
    obtain ⟨g, hg, hmem⟩ := List.mem_flatMap.mp hmem
    rw [h.members g hg, List.mem_idxsOf_iff_getElem_pos hi, harc] at hmem
    cases hmem
  | some a =>
    obtain ⟨g, hg, rfl⟩ := List.mem_map.mp ((h.keys a).mpr (harc ▸ List.getElem_mem hi))
    have hplace : g.2[(arcs.take i).count (some g.1)]? = some i :=
      h.members g hg ▸ getElem?_idxsOf hi harc
    refine getD_writes_of_mem ?_ ?_ ?_ 0
    · rw [hplaces]
      exact h.nodup_members
    · refine List.mem_flatMap.mpr ⟨g, hg, List.mem_map.mpr
        ⟨(i, (arcs.take i).count (some g.1)), List.mem_zipIdx_iff_getElem?.mpr hplace, ?_⟩⟩
      simp [h.members g hg]
    · rwa [Array.size_replicate]

end Spreading

/-! ## Edges of one segment -/

/-- The edge joins neighbouring ranks. -/
def Adjoins (ranks : Array Nat) (a : Arc) : Prop := ranks.getD a.2 0 = ranks.getD a.1 0 + 1

instance (ranks : Array Nat) (a : Arc) : Decidable (Adjoins ranks a) :=
  inferInstanceAs (Decidable (_ = _))

section Short

variable {ranks : Array Nat} {edges : List (Option Arc)} {a : Arc}

/-- A chain has two nodes if and only if its ends are in neighbouring ranks. -/
theorem shortArcs_eq (h : LeadDown ranks edges) :
    shortArcs edges (Layered.ofEdges ranks edges).chains =
      edges.map fun e => e.filter fun a => Adjoins ranks a := by
  have hlength := Layered.length_chains ranks edges
  apply List.ext_getElem
  · simp [shortArcs, hlength]
  intro i hi _
  have hi : i < edges.length := by simpa [shortArcs, hlength] using hi
  have hbecomes := (List.forall₂_iff_get.mp (Layered.paths_ofEdges h)).2 i hi (hlength ▸ hi)
  simp only [List.get_eq_getElem] at hbecomes
  simp only [shortArcs, List.getElem_zipWith, List.getElem_map]
  cases harc : edges[i] with
  | none => simp
  | some a =>
    rw [harc] at hbecomes
    obtain ⟨chain, hchain, hpath⟩ := hbecomes
    obtain ⟨hupper, hlower, -⟩ := h a (harc ▸ List.getElem_mem hi)
    have hrank := hpath.rank_last
    have hfirst : (Layered.ofEdges ranks edges).rank.getD a.1 0 = ranks.getD a.1 0 :=
      Layered.rankOf_real hupper
    have hlast : (Layered.ofEdges ranks edges).rank.getD a.2 0 = ranks.getD a.2 0 :=
      Layered.rankOf_real hlower
    have htwo : chain.length = 2 ↔ Adjoins ranks a := by
      rw [Adjoins]
      omega
    rw [hchain]
    simp [htwo, Option.filter]

theorem count_filter (edges : List (Option Arc)) (ha : Adjoins ranks a) :
    (edges.map fun e => e.filter fun a => Adjoins ranks a).count (some a) =
      edges.count (some a) := by
  rw [List.count, List.countP_map]
  apply List.countP_congr
  intro e _
  simp only [Function.comp_apply, beq_iff_eq, Option.filter_eq_some_iff, decide_eq_true_eq]
  exact and_iff_left ha

end Short

/-! ## Even bends -/

section Even

variable {K : Type} [Field K] [LinearOrder K] [FloorRing K] [PlaneFunctions K]

theorem evenBend_eq (edgeSep : K) {count : Nat} (h : 0 < count) (place : Nat) :
    evenBend edgeSep count place = ((place : K) - ((count : K) - 1) / 2) * edgeSep := by
  change ((place : K) - half ((count - 1 : Nat) : K)) * edgeSep = _
  rw [half, Nat.cast_pred h, Nat.cast_two]

/-- The bends of `count` edges in their order. -/
def evenly (edgeSep : K) (count : Nat) : List K :=
  (List.range count).map (evenBend edgeSep count)

theorem sum_range_sub (c s : K) (count : Nat) :
    ((List.range count).map fun k : Nat => ((k : K) - c) * s).sum =
      ((count : K) * ((count : K) - 1) / 2 - count * c) * s := by
  induction count with
  | zero => simp
  | succ count ih =>
    rw [List.range_succ, List.map_append, List.sum_append, ih]
    push_cast
    simp only [List.map_cons, List.map_nil, List.sum_cons, List.sum_nil]
    ring

/-- The bends are in balance. -/
theorem sum_evenly (edgeSep : K) (count : Nat) : (evenly edgeSep count).sum = 0 := by
  rcases Nat.eq_zero_or_pos count with rfl | hpos
  · rfl
  · have heven : evenly edgeSep count =
        (List.range count).map fun k : Nat => ((k : K) - ((count : K) - 1) / 2) * edgeSep :=
      List.map_congr_left fun k _ => evenBend_eq edgeSep hpos k
    rw [heven, sum_range_sub]
    ring

theorem evenBend_succ_sub (edgeSep : K) (count place : Nat) :
    evenBend edgeSep count (place + 1) - evenBend edgeSep count place = edgeSep := by
  change (((place + 1 : Nat) : K) - half ((count - 1 : Nat) : K)) * edgeSep -
    ((place : K) - half ((count - 1 : Nat) : K)) * edgeSep = edgeSep
  push_cast
  ring

/-- Each bend is a gap beside the one before. -/
theorem isChain_evenly (edgeSep : K) (count : Nat) :
    (evenly edgeSep count).IsChain fun x y => y - x = edgeSep := by
  rw [evenly, List.isChain_map, List.isChain_range]
  exact fun place _ => evenBend_succ_sub edgeSep count place

end Even

/-! ## The bends of a group -/

/-- The bends of the edges with an arc, in the order of declaration. -/
def bendsAlong {K : Type} (edges : List (Option Arc)) (bends : List K) (a : Arc) : List K :=
  ((edges.zip bends).filter fun e => e.1 = some a).map Prod.snd

theorem bendsAlong_spread {K : Type} [Scalar K] (edgeSep : K) (all earlier arcs : List (Option Arc))
    (a : Arc) : bendsAlong arcs (spread edgeSep all earlier arcs) a =
      (List.range (arcs.count (some a))).map fun k =>
        evenBend edgeSep (all.count (some a)) (earlier.count (some a) + k) := by
  induction arcs generalizing earlier with
  | nil => rfl
  | cons arc rest ih =>
    cases arc with
    | none => simpa [bendsAlong, spread] using ih earlier
    | some b =>
      have hrest := ih (some b :: earlier)
      unfold bendsAlong at hrest ⊢
      by_cases hb : b = a
      · subst hb
        simp only [spread, List.zip_cons_cons, List.count_cons_self, List.range_succ_eq_map,
          List.map_cons, List.map_map]
        rw [List.filter_cons_of_pos (by simp), List.map_cons, hrest]
        refine congrArg₂ List.cons rfl (List.map_congr_left fun k _ => ?_)
        simp only [List.count_cons_self, Function.comp_apply]
        rw [Nat.add_right_comm, Nat.add_assoc]
      · simp only [spread, List.zip_cons_cons]
        rw [List.filter_cons_of_neg (by simpa using hb), hrest]
        simp [hb]

/-- Edges without an arc in the group do not matter. -/
theorem bendsAlong_filter {K : Type} {ranks : Array Nat} {a : Arc} (ha : Adjoins ranks a)
    (edges : List (Option Arc)) (bends : List K) :
    bendsAlong (edges.map fun e => e.filter fun a => Adjoins ranks a) bends a =
      bendsAlong edges bends a := by
  rw [bendsAlong, List.zip_map_left, List.filter_map, List.map_map, bendsAlong]
  have hkept : ∀ e : Option Arc × K,
      (e.1.filter fun a => decide (Adjoins ranks a)) = some a ↔ e.1 = some a := by
    intro e
    rw [Option.filter_eq_some_iff, decide_eq_true_eq]
    exact and_iff_left ha
  exact congrArg (List.map Prod.snd)
    (List.filter_congr fun e _ => decide_eq_decide.mpr (hkept e))

/-! ## What the bends are -/

section Spread

variable {K : Type} [Field K] [LinearOrder K] [FloorRing K] [PlaneFunctions K]

/-- Edges between neighbouring ranks with both ends in common are spread around their middle, and
no other edge is bent. -/
structure SpreadEvenly (ranks : Array Nat) (edges : List (Option Arc)) (edgeSep : K)
    (bends : List K) : Prop where
  length : bends.length = edges.length
  /-- An edge is bent by its place among the edges with the same ends, and by how many they are. -/
  bend : ∀ i (hi : i < edges.length) (hb : i < bends.length), bends[i] = match edges[i] with
    | some a =>
      if Adjoins ranks a then
        (((edges.take i).count (some a) : K) - ((edges.count (some a) : K) - 1) / 2) * edgeSep
      else 0
    | none => 0
  /-- In the order of declaration, each is a gap beside the one before. -/
  apart : ∀ a, Adjoins ranks a → (bendsAlong edges bends a).IsChain fun x y => y - x = edgeSep
  balanced : ∀ a, Adjoins ranks a → (bendsAlong edges bends a).sum = 0

/-- **Parallel edges are spread evenly**, and the same bends result if they are spread group by
group, in whatever order the groups are taken. -/
theorem spread_evenly {ranks : Array Nat} {edges : List (Option Arc)} (h : LeadDown ranks edges)
    (edgeSep : K) :
    let short := shortArcs edges (Layered.ofEdges ranks edges).chains
    SpreadEvenly ranks edges edgeSep (spread edgeSep short [] short) ∧
      ∀ order : Groups, order.Perm (Groups.ofArcs short) →
        (spreadGroups edgeSep short.length order).toList = spread edgeSep short [] short := by
  intro short
  have hshort : short = edges.map fun e => e.filter fun a => Adjoins ranks a := shortArcs_eq h
  have heven : ∀ a, Adjoins ranks a →
      bendsAlong edges (spread edgeSep short [] short) a =
        evenly edgeSep (short.count (some a)) := by
    intro a ha
    rw [← bendsAlong_filter ha, ← hshort, bendsAlong_spread]
    exact List.map_congr_left fun k _ => by rw [List.count_nil, Nat.zero_add]
  refine ⟨?_, fun order hp => ((gathers_ofArcs short).perm hp).spreadGroups_eq edgeSep⟩
  constructor
  case length => rw [length_spread, hshort, List.length_map]
  case bend =>
    intro i hi hb
    have hi' : i < short.length := by rwa [hshort, List.length_map]
    have hget : short[i] = edges[i].filter fun a => Adjoins ranks a := by
      simp only [hshort, List.getElem_map]
    rw [getElem_spread edgeSep short [] short hi' hb, hget]
    cases harc : edges[i] with
    | none => exact Scalar.zero_eq
    | some a =>
      by_cases ha : Adjoins ranks a
      · have hcount : short.count (some a) = edges.count (some a) := by
          rw [hshort, count_filter edges ha]
        have hbefore : (short.take i).count (some a) = (edges.take i).count (some a) := by
          rw [hshort, ← List.map_take, count_filter _ ha]
        have hpos : 0 < edges.count (some a) :=
          List.count_pos_iff.mpr (harc ▸ List.getElem_mem hi)
        simp only [Option.filter_some, ha, decide_true, if_true, hcount, hbefore, List.count_nil,
          Nat.zero_add]
        exact evenBend_eq edgeSep hpos _
      · simp only [Option.filter_some, ha, decide_false, Bool.false_eq_true, if_false]
        exact Scalar.zero_eq
  case apart => exact fun a ha => heven a ha ▸ isChain_evenly edgeSep _
  case balanced => exact fun a ha => heven a ha ▸ sum_evenly edgeSep _

/-- Three edges between the same nodes, two of which are declared apart from the first, a long edge,
a loop and an edge by itself. -/
def strands : List (Option Arc) :=
  [some (0, 1), some (0, 2), none, some (0, 1), some (1, 2), some (0, 1)]

theorem spread_evenly_strands :
    let short := shortArcs strands (Layered.ofEdges #[0, 1, 2] strands).chains
    LeadDown #[0, 1, 2] strands ∧
      SpreadEvenly #[0, 1, 2] strands (10 : ℚ) [-10, 0, 0, 0, 0, 10] ∧
      [((1, 2), [4]), ((0, 1), [0, 3, 5])].Perm (Groups.ofArcs short) ∧
      (spreadGroups (10 : ℚ) 6 [((1, 2), [4]), ((0, 1), [0, 3, 5])]).toList =
        [-10, 0, 0, 0, 0, 10] := by
  intro short
  have hdown : LeadDown #[0, 1, 2] strands := by decide
  obtain ⟨heven, horder⟩ := spread_evenly hdown (10 : ℚ)
  have hbends : spread (10 : ℚ) short [] short = [-10, 0, 0, 0, 0, 10] := by decide +kernel
  have hperm : [((1, 2), [4]), ((0, 1), [0, 3, 5])].Perm (Groups.ofArcs short) := by decide
  exact ⟨hdown, hbends ▸ heven, hperm, hbends ▸ horder _ hperm⟩

end Spread
end Tiered.Layout
