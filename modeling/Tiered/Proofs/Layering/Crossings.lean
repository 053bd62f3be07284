import Mathlib.Data.List.Sort
import Tiered.Proofs.Layering.Chains
import Tiered.Proofs.Layering.Inversions

/-!
# Crossings are counted, and exchanges that pay lower them

* `crossingPairs`: how many pairs of segments cross, by where their ends stand;
* `crossings_eq`: this is what the tallies of all layers add up to;
* `crossingPairs_exchange`: exchanging two neighbours of a layer changes the number by what their
  own segments do.
-/

namespace Tiered.Layering.Layered

variable {g : Layered}

/-- Where a node stands in its layer. -/
def place (g : Layered) (layers : Layers) (v : Nat) : Nat := (g.places layers).getD v 0

/-- Two segments between the same two layers cross, the one that starts first being `s`: their
upper ends are in one order and their lower ends in the other. -/
def Cross (g : Layered) (layers : Layers) (s t : Arc) : Prop :=
  g.rankOf s.1 = g.rankOf t.1 ∧
    g.place layers s.1 < g.place layers t.1 ∧ g.place layers t.2 < g.place layers s.2

instance (g : Layered) (layers : Layers) (s t : Arc) : Decidable (g.Cross layers s t) :=
  inferInstanceAs (Decidable (_ ∧ _))

/-- How many pairs of segments cross. -/
def crossingPairs (g : Layered) (layers : Layers) : Nat :=
  (g.arcs.product g.arcs).countP fun (s, t) => g.Cross layers s t

/-! ## Places -/

theorem place_eq_idxOf {layers : Layers} (h : g.Complete layers) {v : Nat} (hv : v < g.size) :
    g.place layers v = (layers.getD (g.rankOf v) []).idxOf v := by
  have hr : g.rankOf v < layers.length := by
    rw [h.depth]
    exact rankOf_lt_depth hv
  have hmem : v ∈ layers[g.rankOf v] := (h.mem_getElem hr).mpr ⟨hv, rfl⟩
  rw [List.getD_eq_getElem _ _ hr]
  have hidx := List.idxOf_lt_length_of_mem hmem
  have hplace := getD_places h (List.getElem_mem hr) hidx
  rwa [List.getElem_idxOf hidx] at hplace

theorem place_inj {layers : Layers} (h : g.Complete layers) {v w : Nat} (hv : v < g.size)
    (hw : w < g.size) (hrank : g.rankOf v = g.rankOf w)
    (hplace : g.place layers v = g.place layers w) : v = w := by
  obtain ⟨_, _, hgetv⟩ := exists_getElem_place h hv
  obtain ⟨_, _, hgetw⟩ := exists_getElem_place h hw
  unfold place at hplace
  rw [← hgetv, ← hgetw]
  simp only [hrank, hplace]

/-- Along a layer the places ascend. -/
theorem pairwise_place {layers : Layers} (h : g.Complete layers) {layer : List Nat}
    (hl : layer ∈ layers) :
    layer.Pairwise fun v w => g.rankOf v = g.rankOf w ∧ g.place layers v < g.place layers w := by
  obtain ⟨r, hr, rfl⟩ := List.mem_iff_getElem.mp hl
  refine List.pairwise_iff_getElem.mpr fun i j hi hj hij => ⟨?_, ?_⟩
  · rw [((h.mem_getElem hr).mp (List.getElem_mem hi)).2,
      ((h.mem_getElem hr).mp (List.getElem_mem hj)).2]
  · rw [place, place, getD_places h hl hi, getD_places h hl hj]
    exact hij

/-- Nodes of different layers have different ranks. -/
theorem pairwise_rankOf {layers : Layers} (h : g.Complete layers) :
    layers.Pairwise fun layer other => ∀ v ∈ layer, ∀ w ∈ other, g.rankOf v ≠ g.rankOf w := by
  refine List.pairwise_iff_getElem.mpr fun i j hi hj hij v hv w hw => ?_
  rw [((h.mem_getElem hi).mp hv).2, ((h.mem_getElem hj).mp hw).2]
  omega

theorem mem_flatten {layers : Layers} (h : g.Complete layers) {v : Nat} :
    v ∈ layers.flatten ↔ v < g.size := by
  constructor
  · intro hv
    obtain ⟨layer, hl, hv⟩ := List.mem_flatten.mp hv
    exact h.lt_size hl hv
  · intro hv
    have hr : g.rankOf v < layers.length := by
      rw [h.depth]
      exact rankOf_lt_depth hv
    exact List.mem_flatten.mpr ⟨_, List.getElem_mem hr, (h.mem_getElem hr).mpr ⟨hv, rfl⟩⟩

/-! ## The tallies count the pairs that cross -/

/-- How many segments of two lists of ends, all of the same layer, are in the wrong order. -/
def endCrossings (g : Layered) (layers : Layers) (xs ys : List Nat) : Nat :=
  crossSum (fun x y => inverted (g.place layers x) (g.place layers y)) xs ys

/-- What the segments at two nodes do, by whatever places were noted. -/
theorem pairCrossings_eq_crossSum (places : Array Nat) (v w : Nat) :
    g.pairCrossings places v w =
      crossSum (fun x y => inverted (places.getD x 0) (places.getD y 0)) (g.above v) (g.above w) +
        crossSum (fun x y => inverted (places.getD x 0) (places.getD y 0)) (g.below v)
          (g.below w) := by
  have hcount : ∀ xs ys : List Nat,
      xs.foldr (fun x n => (ys.countP fun y => places.getD y 0 < places.getD x 0) + n) 0 =
        crossSum (fun x y => inverted (places.getD x 0) (places.getD y 0)) xs ys := by
    intro xs ys
    induction xs with
    | nil => rfl
    | cons x xs ih =>
      rw [List.foldr_cons, ih, countP_eq_sum, crossSum_cons]
      simp only [decide_eq_true_eq]
      rfl
  rw [← hcount, ← hcount]
  rfl

theorem pairCrossings_eq (layers : Layers) (v w : Nat) :
    g.pairCrossings (g.places layers) v w =
      g.endCrossings layers (g.above v) (g.above w) +
        g.endCrossings layers (g.below v) (g.below w) :=
  pairCrossings_eq_crossSum _ v w

/-- The lower ends of the segments below a layer. -/
theorem pairSum_lowerPlaces (layers : Layers) (layer : List Nat) :
    pairSum inverted (g.lowerPlaces (g.places layers) layer) =
      pairSum (fun v w => g.endCrossings layers (g.below v) (g.below w)) layer := by
  have hsorted : ∀ ps : List Nat, pairSum inverted ps.mergeSort = 0 := by
    intro ps
    refine pairSum_eq_zero ((List.pairwise_mergeSort' (· ≤ ·) ps).imp fun hle => ?_)
    rw [inverted, if_neg (Nat.not_lt.mpr hle)]
  have hblocks : ∀ v w, crossSum inverted
      (((g.below v).map ((g.places layers).getD · 0)).mergeSort)
      (((g.below w).map ((g.places layers).getD · 0)).mergeSort) =
        g.endCrossings layers (g.below v) (g.below w) := by
    intro v w
    rw [crossSum_perm inverted (List.mergeSort_perm _ _) (List.mergeSort_perm _ _), crossSum_map]
    rfl
  rw [lowerPlaces, pairSum_flatMap]
  simp only [hsorted, hblocks]
  simp

/-- The layer behind some layers holds the nodes of that rank. -/
theorem mem_layer {layers done rest : Layers} {layer : List Nat} (h : g.Complete layers)
    (hsplit : layers = done ++ layer :: rest) {v : Nat} :
    v ∈ layer ↔ v < g.size ∧ g.rankOf v = done.length := by
  have hget : layers.getD done.length [] = layer := by
    rw [hsplit, List.getD_append_right _ _ _ _ (Nat.le_refl _), Nat.sub_self]
    rfl
  rw [← h.mem_getD, hget]

theorem mem_below (hg : g.Joined) {v w : Nat} (hv : v < g.size) (hw : w ∈ g.below v) :
    w < g.size ∧ g.rankOf w = g.rankOf v + 1 := by
  have hs := (hg.mem_below_iff hv).mp hw
  exact ⟨(hg.bound _ hs).2, hg.rank _ hs⟩

theorem mem_above (hg : g.Joined) {v w : Nat} (hv : v < g.size) (hw : w ∈ g.above v) :
    w < g.size ∧ g.rankOf v = g.rankOf w + 1 := by
  have hs := (hg.mem_above_iff hv).mp hw
  exact ⟨(hg.bound _ hs).1, hg.rank _ hs⟩

/-- No segments start in the last layer. -/
theorem below_of_last (hg : g.Joined) {layers done : Layers} {layer : List Nat}
    (h : g.Complete layers) (hsplit : layers = done ++ [layer]) {v : Nat} (hv : v ∈ layer) :
    g.below v = [] := by
  obtain ⟨hsize, hrank⟩ := (mem_layer h hsplit).mp hv
  refine List.eq_nil_iff_forall_not_mem.mpr fun w hw => ?_
  obtain ⟨hw, hrankw⟩ := mem_below hg hsize hw
  have hdepth := rankOf_lt_depth hw
  have hlength := h.depth
  rw [hsplit, List.length_append, List.length_singleton] at hlength
  omega

/-- The noted places of lower ends are those of the next layer. -/
theorem lowerPlaces_lt (hg : g.Joined) {layers done rest : Layers} {layer next : List Nat}
    (h : g.Complete layers) (hsplit : layers = done ++ layer :: next :: rest) :
    ∀ p ∈ g.lowerPlaces (g.places layers) layer, p < next.length := by
  have hnext : layers = (done ++ [layer]) ++ next :: rest := by simp [hsplit]
  intro p hp
  obtain ⟨v, hv, hp⟩ := List.mem_flatMap.mp hp
  obtain ⟨w, hw, rfl⟩ := List.mem_map.mp (List.mem_mergeSort.mp hp)
  obtain ⟨hsize, hrank⟩ := (mem_layer h hsplit).mp hv
  obtain ⟨hsizew, hrankw⟩ := mem_below hg hsize hw
  have hmem : w ∈ next := (mem_layer h hnext).mpr ⟨hsizew, by simp [hrankw, hrank]⟩
  obtain ⟨i, hi, rfl⟩ := List.mem_iff_getElem.mp hmem
  rwa [getD_places h (by simp [hnext]) hi]

/-- The crossings of the layers below the first ones. -/
theorem crossingsFrom_eq (hg : g.Joined) {layers rest : Layers} (done : Layers)
    (h : g.Complete layers) (hsplit : layers = done ++ rest) :
    g.crossingsFrom (g.places layers) rest = (rest.map fun layer =>
      pairSum (fun v w => g.endCrossings layers (g.below v) (g.below w)) layer).sum := by
  induction rest generalizing done with
  | nil => rfl
  | cons layer rest ih =>
    cases rest with
    | nil =>
      have hzero :
          pairSum (fun v w => g.endCrossings layers (g.below v) (g.below w)) layer = 0 := by
        refine pairSum_eq_zero (List.pairwise_of_forall_mem_list fun v hv w _ => ?_)
        rw [below_of_last hg h hsplit hv]
        rfl
      rw [List.map_singleton, List.sum_singleton, hzero]
      rfl
    | cons next rest =>
      have hnext : layers = (done ++ [layer]) ++ next :: rest := by simp [hsplit]
      rw [crossingsFrom, inversions_eq (lowerPlaces_lt hg h hsplit), pairSum_lowerPlaces,
        ih _ hnext]
      simp only [List.map_cons, List.sum_cons]

theorem crossings_eq_sum (hg : g.Joined) {layers : Layers} (h : g.Complete layers) :
    g.crossings layers = (layers.map fun layer =>
      pairSum (fun v w => g.endCrossings layers (g.below v) (g.below w)) layer).sum :=
  crossingsFrom_eq hg [] h rfl

/-- The arcs whose keys are in a list, where a key may be either end. -/
theorem filter_mem_perm (key : Arc → Nat) (arcs : List Arc) {vs : List Nat} (hvs : vs.Nodup) :
    (vs.flatMap fun v => arcs.filter (key · = v)).Perm (arcs.filter (key · ∈ vs)) := by
  induction vs with
  | nil => simp
  | cons v vs ih =>
    obtain ⟨hv, hrest⟩ := List.nodup_cons.mp hvs
    have hall := List.filter_append_perm (key · = v) (arcs.filter (key · ∈ v :: vs))
    rw [List.filter_filter, List.filter_filter] at hall
    have hfirst : arcs.filter (fun s => decide (key s = v) && decide (key s ∈ v :: vs)) =
        arcs.filter (key · = v) := by
      refine List.filter_congr fun s _ => ?_
      by_cases hs : key s = v <;> simp [hs]
    have hothers : arcs.filter (fun s => !decide (key s = v) && decide (key s ∈ v :: vs)) =
        arcs.filter (key · ∈ vs) := by
      refine List.filter_congr fun s _ => ?_
      by_cases hs : key s = v <;> simp [hs, hv]
    rw [hfirst, hothers] at hall
    exact ((ih hrest).append_left _).trans hall

theorem arcs_perm (hg : g.Joined) {layers : Layers} (h : g.Complete layers) :
    g.arcs.Perm (layers.flatten.flatMap fun v => (g.below v).map (v, ·)) := by
  have hbelow : (layers.flatten.flatMap fun v => (g.below v).map (v, ·)) =
      layers.flatten.flatMap fun v => g.arcs.filter (·.1 = v) := by
    refine List.flatMap_congr fun v hv => ?_
    rw [hg.below v ((mem_flatten h).mp hv), List.map_map]
    refine (List.map_congr_left fun s hs => ?_).trans (List.map_id _)
    have hs : s.1 = v := by simpa using (List.mem_filter.mp hs).2
    rw [← hs]
    rfl
  have hall : g.arcs.filter (·.1 ∈ layers.flatten) = g.arcs := by
    refine List.filter_eq_self.mpr fun s hs => ?_
    rw [decide_eq_true_eq]
    exact (mem_flatten h).mpr (hg.bound s hs).1
  rw [hbelow]
  exact ((filter_mem_perm Prod.fst g.arcs h.nodup_flatten).trans (List.Perm.of_eq hall)).symm

/-- Only pairs of segments from the same layer cross, and of these only those that start in the
order of their upper ends count. -/
theorem crossingPairs_eq_sum (hg : g.Joined) {layers : Layers} (h : g.Complete layers) :
    g.crossingPairs layers = (layers.map fun layer =>
      pairSum (fun v w => g.endCrossings layers (g.below v) (g.below w)) layer).sum := by
  let count (v w : Nat) : Nat :=
    if g.rankOf v = g.rankOf w ∧ g.place layers v < g.place layers w then
      g.endCrossings layers (g.below v) (g.below w) else 0
  have hnodes : g.crossingPairs layers = crossSum count layers.flatten layers.flatten := by
    rw [crossingPairs, countP_product, crossSum_perm _ (arcs_perm hg h) (arcs_perm hg h),
      crossSum_flatMap]
    refine crossSum_congr fun v _ w _ => ?_
    rw [crossSum_map]
    simp only [decide_eq_true_eq]
    by_cases hvw : g.rankOf v = g.rankOf w ∧ g.place layers v < g.place layers w
    · have hcount : count v w = g.endCrossings layers (g.below v) (g.below w) := if_pos hvw
      rw [hcount]
      refine crossSum_congr fun x _ y _ => ?_
      simp only [Cross, hvw, true_and, inverted]
    · have hcount : count v w = 0 := if_neg hvw
      rw [hcount]
      exact crossSum_eq_zero fun x _ y _ => if_neg fun hc => hvw ⟨hc.1, hc.2.1⟩
  have hback : layers.flatten.Pairwise fun v w => count w v = 0 := by
    refine List.pairwise_flatten.mpr ⟨fun layer hl => ?_, ?_⟩
    · exact (pairwise_place h hl).imp fun hvw => if_neg fun hwv => Nat.lt_asymm hvw.2 hwv.2
    · exact (pairwise_rankOf h).imp fun hne v hv w hw =>
        if_neg fun hwv => hne v hv w hw hwv.1.symm
  have hself : ∀ v ∈ layers.flatten, count v v = 0 := fun v _ =>
    if_neg fun hv => Nat.lt_irrefl _ hv.2
  have hlayers : pairSum count layers.flatten =
      (layers.map fun layer => pairSum count layer).sum := by
    have hbetween : pairSum (fun layer other => crossSum count layer other) layers = 0 :=
      pairSum_eq_zero ((pairwise_rankOf h).imp fun hne =>
        crossSum_eq_zero fun v hv w hw => if_neg fun hvw => hne v hv w hw hvw.1)
    have hblocks := pairSum_flatMap count (fun layer => layer) layers
    rwa [hbetween, Nat.add_zero, List.flatMap_id'] at hblocks
  rw [hnodes, crossSum_eq_pairSum hself hback, hlayers]
  refine congrArg List.sum (List.map_congr_left fun layer hl => ?_)
  exact pairSum_congr ((pairwise_place h hl).imp fun hvw => if_pos hvw)

/-- **Crossings are counted.** The tallies add up to the number of pairs of segments that cross. -/
theorem crossings_eq (hg : g.Joined) {layers : Layers} (h : g.Complete layers) :
    g.crossings layers = g.crossingPairs layers :=
  (crossings_eq_sum hg h).trans (crossingPairs_eq_sum hg h).symm

/-! ## Exchanging neighbours -/

/-- `v` and its neighbour `w` behind it change places. -/
inductive Swaps (v w : Nat) : Layers → Layers → Prop
  | mk (up down : Layers) (front back : List Nat) :
      Swaps v w (up ++ (front ++ v :: w :: back) :: down) (up ++ (front ++ w :: v :: back) :: down)

theorem Swaps.permuted {v w : Nat} {layers next : Layers} (h : Swaps v w layers next) :
    Permuted next layers := by
  obtain ⟨up, down, front, back⟩ := h
  have hlayer : (front ++ w :: v :: back).Perm (front ++ v :: w :: back) :=
    (List.Perm.swap v w back).append_left front
  exact List.rel_append (Permuted.refl up) (.cons hlayer (Permuted.refl down))

/-- Where entries stand in a list of which two neighbours change places. -/
theorem idxOf_exchange {front back : List Nat} {v w : Nat}
    (hd : (front ++ v :: w :: back).Nodup) :
    (front ++ v :: w :: back).idxOf v = front.length ∧
      (front ++ v :: w :: back).idxOf w = front.length + 1 ∧
      (front ++ w :: v :: back).idxOf v = front.length + 1 ∧
      (front ++ w :: v :: back).idxOf w = front.length ∧
      ∀ x, x ≠ v → x ≠ w →
        (front ++ w :: v :: back).idxOf x = (front ++ v :: w :: back).idxOf x := by
  obtain ⟨-, hback, hfront⟩ := List.nodup_append.mp hd
  have hne : v ≠ w := fun h => (List.nodup_cons.mp hback).1 (h ▸ List.mem_cons_self)
  have hv : v ∉ front := fun hv => hfront v hv v List.mem_cons_self rfl
  have hw : w ∉ front := fun hw => hfront w hw w (List.mem_cons_of_mem _ List.mem_cons_self) rfl
  refine ⟨?_, ?_, ?_, ?_, ?_⟩
  · rw [List.idxOf_append_of_notMem hv, List.idxOf_cons_self, Nat.add_zero]
  · rw [List.idxOf_append_of_notMem hw, List.idxOf_cons_ne _ hne, List.idxOf_cons_self]
  · rw [List.idxOf_append_of_notMem hv, List.idxOf_cons_ne _ hne.symm, List.idxOf_cons_self]
  · rw [List.idxOf_append_of_notMem hw, List.idxOf_cons_self, Nat.add_zero]
  · intro x hxv hxw
    by_cases hx : x ∈ front
    · rw [List.idxOf_append_of_mem hx, List.idxOf_append_of_mem hx]
    · rw [List.idxOf_append_of_notMem hx, List.idxOf_append_of_notMem hx,
        List.idxOf_cons_ne _ hxw.symm, List.idxOf_cons_ne _ hxv.symm,
        List.idxOf_cons_ne _ hxv.symm, List.idxOf_cons_ne _ hxw.symm]

/-- The layers but one stay the same if that one is replaced. -/
theorem getD_replace {up down : Layers} {layer other : List Nat} {r : Nat} (hr : r ≠ up.length) :
    (up ++ layer :: down).getD r [] = (up ++ other :: down).getD r [] := by
  simp only [List.getD_eq_getElem?_getD]
  rcases Nat.lt_or_gt_of_ne hr with hr | hr
  · rw [List.getElem?_append_left hr, List.getElem?_append_left hr]
  · obtain ⟨k, rfl⟩ := Nat.exists_eq_add_of_lt hr
    rw [List.getElem?_append_right (by omega), List.getElem?_append_right (by omega)]
    have hk : up.length + k + 1 - up.length = k + 1 := by omega
    rw [hk, List.getElem?_cons_succ, List.getElem?_cons_succ]

theorem place_replace {up down : Layers} {layer other : List Nat}
    (h : g.Complete (up ++ layer :: down)) (ho : g.Complete (up ++ other :: down)) {x : Nat}
    (hx : x < g.size) (hrank : g.rankOf x ≠ up.length) :
    g.place (up ++ layer :: down) x = g.place (up ++ other :: down) x := by
  rw [place_eq_idxOf h hx, place_eq_idxOf ho hx, getD_replace hrank]

section Exchange

variable {layers next : Layers} {v w : Nat} (h : g.Complete layers) (hs : Swaps v w layers next)

include h hs

theorem Swaps.nodes : v < g.size ∧ w < g.size ∧ g.rankOf w = g.rankOf v := by
  obtain ⟨up, down, front, back⟩ := hs
  obtain ⟨hv, hrankv⟩ := (mem_layer h rfl (v := v)).mp (by simp)
  obtain ⟨hw, hrankw⟩ := (mem_layer h rfl (v := w)).mp (by simp)
  exact ⟨hv, hw, hrankw.trans hrankv.symm⟩

theorem Swaps.complete : g.Complete next := h.permuted hs.permuted

/-- The two nodes exchange their places, and all others keep theirs. -/
theorem Swaps.places : g.place layers w = g.place layers v + 1 ∧
    g.place next v = g.place layers w ∧ g.place next w = g.place layers v ∧
    ∀ x < g.size, x ≠ v → x ≠ w → g.place next x = g.place layers x := by
  have hnext := hs.complete h
  obtain ⟨hv, hw, hrankw⟩ := hs.nodes h
  rw [place_eq_idxOf h hw, place_eq_idxOf h hv, place_eq_idxOf hnext hw, place_eq_idxOf hnext hv,
    hrankw]
  obtain ⟨up, down, front, back⟩ := hs
  have hrank := ((mem_layer h rfl (v := v)).mp (by simp)).2
  have hlayer : ∀ layer : List Nat, (up ++ layer :: down).getD up.length [] = layer := by
    intro layer
    rw [List.getD_append_right _ _ _ _ (Nat.le_refl _), Nat.sub_self]
    rfl
  have hd : (front ++ v :: w :: back).Nodup := by
    have hperm := h.perm up.length
    rw [hlayer] at hperm
    exact hperm.nodup_iff.mpr (nodup_nodesOf g _)
  obtain ⟨hidxv, hidxw, hidxv', hidxw', hothers⟩ := idxOf_exchange hd
  rw [hrank, hlayer, hlayer, hidxv, hidxw, hidxv', hidxw']
  refine ⟨rfl, rfl, rfl, fun x hx hxv hxw => ?_⟩
  by_cases hrankx : g.rankOf x = up.length
  · rw [place_eq_idxOf h hx, place_eq_idxOf hnext hx, hrankx, hlayer, hlayer, hothers x hxv hxw]
  · exact place_replace hnext h hx hrankx

/-- Two nodes of the layer change their order if they are the ones exchanged. -/
theorem Swaps.place_lt {a b : Nat} (ha : a < g.size) (hb : b < g.size)
    (hranka : g.rankOf a = g.rankOf v) (hrankb : g.rankOf b = g.rankOf v) :
    (if g.place next a < g.place next b then 1 else 0) + (if a = v ∧ b = w then 1 else 0) =
      (if g.place layers a < g.place layers b then 1 else 0) +
        if a = w ∧ b = v then 1 else 0 := by
  obtain ⟨hv, hw, hrankw⟩ := hs.nodes h
  obtain ⟨hplacew, hnextv, hnextw, hothers⟩ := hs.places h
  -- Only `v` and `w` themselves have the places of `v` and `w`.
  have hplace : ∀ {x}, x < g.size → g.rankOf x = g.rankOf v →
      (x = v ∧ g.place next x = g.place layers v + 1 ∧ g.place layers x = g.place layers v) ∨
      (x = w ∧ g.place next x = g.place layers v ∧ g.place layers x = g.place layers v + 1) ∨
      (x ≠ v ∧ x ≠ w ∧ g.place next x = g.place layers x ∧
        g.place layers x ≠ g.place layers v ∧ g.place layers x ≠ g.place layers v + 1) := by
    intro x hx hrankx
    by_cases hxv : x = v
    · subst hxv
      exact .inl ⟨rfl, hnextv.trans hplacew, rfl⟩
    by_cases hxw : x = w
    · subst hxw
      exact .inr (.inl ⟨rfl, hnextw, hplacew⟩)
    refine .inr (.inr ⟨hxv, hxw, hothers x hx hxv hxw, ?_, ?_⟩)
    · exact fun heq => hxv (place_inj h hx hv hrankx heq)
    · exact fun heq => hxw (place_inj h hx hw (hrankx.trans hrankw.symm) (heq.trans hplacew.symm))
  have hne : v ≠ w := by
    intro heq
    rw [heq] at hplacew
    omega
  by_cases hvw : a = v ∧ b = w
  · obtain ⟨rfl, rfl⟩ := hvw
    simp [hnextv, hnextw, hplacew, hne]
  by_cases hwv : a = w ∧ b = v
  · obtain ⟨rfl, rfl⟩ := hwv
    simp [hnextv, hnextw, hplacew, hne]
  have hsame : g.place next a < g.place next b ↔ g.place layers a < g.place layers b := by
    rcases hplace ha hranka with ⟨hav, h1, h2⟩ | ⟨haw, h1, h2⟩ | ⟨hav, haw, h1, h2, h3⟩ <;>
      rcases hplace hb hrankb with ⟨hbv, h4, h5⟩ | ⟨hbw, h4, h5⟩ | ⟨hbv, hbw, h4, h5, h6⟩ <;>
      omega
  simp only [hsame, hvw, hwv, if_false]

end Exchange

/-- The crossings of the segments below two nodes, as pairs of segments. -/
theorem endCrossings_below (hg : g.Joined) (layers : Layers) {v w : Nat} (hv : v < g.size)
    (hw : w < g.size) : g.endCrossings layers (g.below v) (g.below w) =
      crossSum (fun s t => if s.1 = v ∧ t.1 = w then
        inverted (g.place layers s.2) (g.place layers t.2) else 0) g.arcs g.arcs := by
  rw [hg.below v hv, hg.below w hw, endCrossings, crossSum_map]
  exact (crossSum_filter _ (fun s : Arc => s.1 = v) (fun t : Arc => t.1 = w) _ _).symm

theorem endCrossings_above (hg : g.Joined) (layers : Layers) {v w : Nat} (hv : v < g.size)
    (hw : w < g.size) : g.endCrossings layers (g.above v) (g.above w) =
      crossSum (fun s t => if t.2 = v ∧ s.2 = w then
        inverted (g.place layers t.1) (g.place layers s.1) else 0) g.arcs g.arcs := by
  rw [hg.above v hv, hg.above w hw, endCrossings, crossSum_map]
  exact (crossSum_filter _ (fun t : Arc => t.2 = v) (fun s : Arc => s.2 = w) _ _).symm.trans
    (crossSum_comm _ _ _)

theorem crossingPairs_eq_crossSum (layers : Layers) : g.crossingPairs layers =
    crossSum (fun s t => if g.Cross layers s t then 1 else 0) g.arcs g.arcs := by
  rw [crossingPairs, countP_product]
  simp only [decide_eq_true_eq]

/-- What an exchange changes at one pair of segments. -/
theorem Swaps.cross (hg : g.Joined) {layers next : Layers} {v w : Nat} (h : g.Complete layers)
    (hs : Swaps v w layers next) {s t : Arc} (hsmem : s ∈ g.arcs) (htmem : t ∈ g.arcs) :
    (if g.Cross next s t then 1 else 0) +
        ((if t.2 = v ∧ s.2 = w then inverted (g.place layers t.1) (g.place layers s.1) else 0) +
          if s.1 = v ∧ t.1 = w then inverted (g.place layers s.2) (g.place layers t.2) else 0) =
      (if g.Cross layers s t then 1 else 0) +
        ((if t.2 = w ∧ s.2 = v then inverted (g.place layers t.1) (g.place layers s.1) else 0) +
          if s.1 = w ∧ t.1 = v then inverted (g.place layers s.2) (g.place layers t.2) else 0) := by
  obtain ⟨hv, hw, hrank⟩ := hs.nodes h
  obtain ⟨hs1, hs2⟩ := hg.bound s hsmem
  obtain ⟨ht1, ht2⟩ := hg.bound t htmem
  have hsrank := hg.rank s hsmem
  have htrank := hg.rank t htmem
  have hother : ∀ x < g.size, g.rankOf x ≠ g.rankOf v → g.place next x = g.place layers x :=
    fun x hx hne => (hs.places h).2.2.2 x hx (fun he => hne (he ▸ rfl)) fun he => hne (he ▸ hrank)
  -- Nodes are exchanged in one layer only.
  have hno : ∀ a b, g.rankOf a ≠ g.rankOf v ∨ g.rankOf b ≠ g.rankOf v →
      ¬(a = v ∧ b = w) ∧ ¬(a = w ∧ b = v) := by
    intro a b hne
    constructor
    · rintro ⟨rfl, rfl⟩
      omega
    · rintro ⟨rfl, rfl⟩
      omega
  simp only [Cross, inverted]
  by_cases hsame : g.rankOf s.1 = g.rankOf t.1
  · by_cases hupper : g.rankOf s.1 = g.rankOf v
    · -- The upper ends are in the layer of the exchange.
      have hlt := hs.place_lt h hs1 ht1 hupper (hsame ▸ hupper)
      have hlower := hno t.2 s.2 (by omega)
      simp only [hother s.2 hs2 (by omega), hother t.2 ht2 (by omega), hsame, true_and,
        hlower.1, hlower.2, if_false, Nat.zero_add]
      by_cases hcross : g.place layers t.2 < g.place layers s.2
      · simp only [hcross, and_true, if_true]
        exact hlt
      · simp only [hcross, and_false, if_false, ite_self]
    · have hupper' := hno s.1 t.1 (.inl hupper)
      simp only [hother s.1 hs1 (by omega), hother t.1 ht1 (by omega), hsame, true_and,
        hupper'.1, hupper'.2, if_false, Nat.add_zero]
      by_cases hlower : g.rankOf s.2 = g.rankOf v
      · -- The lower ends are.
        have hlt := hs.place_lt h ht2 hs2 (by omega) hlower
        by_cases hcross : g.place layers s.1 < g.place layers t.1
        · simp only [hcross, true_and, if_true]
          exact hlt
        · simp only [hcross, false_and, if_false, ite_self]
      · have hlower' := hno t.2 s.2 (.inr hlower)
        simp only [hother s.2 hs2 (by omega), hother t.2 ht2 (by omega), hlower'.1, hlower'.2,
          if_false]
  · have hupper := hno s.1 t.1 (by omega)
    have hlower := hno t.2 s.2 (by omega)
    simp only [hsame, false_and, hupper.1, hupper.2, hlower.1, hlower.2, if_false]

/-- An exchange changes the number of crossings by what the segments of the two nodes do. -/
theorem crossingPairs_exchange (hg : g.Joined) {layers next : Layers} {v w : Nat}
    (h : g.Complete layers) (hs : Swaps v w layers next) :
    g.crossingPairs next + g.pairCrossings (g.places layers) v w =
      g.crossingPairs layers + g.pairCrossings (g.places layers) w v := by
  obtain ⟨hv, hw, -⟩ := hs.nodes h
  rw [pairCrossings_eq, pairCrossings_eq, crossingPairs_eq_crossSum, crossingPairs_eq_crossSum,
    endCrossings_above hg layers hv hw, endCrossings_above hg layers hw hv,
    endCrossings_below hg layers hv hw, endCrossings_below hg layers hw hv,
    ← crossSum_add, ← crossSum_add, ← crossSum_add, ← crossSum_add]
  exact crossSum_congr fun s hsmem t htmem => hs.cross hg h hsmem htmem

end Tiered.Layering.Layered
