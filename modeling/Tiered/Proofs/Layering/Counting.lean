import Tiered.Proofs.Guarded.Access
import Tiered.Proofs.Layering.Crossings

/-!
# The count of crossings is exact, and nothing in it can fail

* `toNat_lowBit`: on words of any width the steps through a tally are two bit operations;
* `opposedPairs`: the pairs of segments between neighbouring layers that are in opposite orders, by
  where their ends are listed;
* `map_snd_segmentsFrom`: the tallies get the segments in the order of both their ends;
* `crossings?`: the count as it is made, in which an access out of range or a difference below zero
  would be the end; `crossings?_eq` shows that it always gets through;
* `counted_ofEdges`: so the count of any arrangement is that of the pairs.
-/

namespace Tiered.Layering

/-! ## Steps through a tally -/

theorem land_eq (a b : Nat) :
    a &&& b = 2 * (a / 2 &&& b / 2) + if a % 2 = 1 ∧ b % 2 = 1 then 1 else 0 := by
  have hparts := Nat.div_add_mod (a &&& b) 2
  have hodd := Nat.and_mod_two_eq_one (a := a) (b := b)
  rw [Nat.and_div_two] at hparts
  split
  · rename_i h
    rw [hodd.mpr h] at hparts
    exact hparts.symm
  · rename_i h
    have hzero : (a &&& b) % 2 = 0 := by
      have := mt hodd.mp h
      omega
    rw [hzero] at hparts
    exact hparts.symm

/-- The number before has the same bits above the lowest one. -/
theorem land_pred {n : Nat} (h : 0 < n) : n &&& (n - 1) = n - lowBit n := by
  fun_induction lowBit n with
  | case1 n hn =>
    have hodd : n % 2 = 1 := by omega
    have hhalf : (n - 1) / 2 = n / 2 := by omega
    have heven : ¬ (n % 2 = 1 ∧ (n - 1) % 2 = 1) := by omega
    rw [land_eq, hhalf, Nat.and_self, if_neg heven]
    omega
  | case2 n hn ih =>
    have hhalf : (n - 1) / 2 = n / 2 - 1 := by omega
    have heven : ¬ (n % 2 = 1 ∧ (n - 1) % 2 = 1) := by omega
    rw [land_eq, hhalf, ih (by omega), if_neg heven]
    omega

/-- The complement with respect to a power of two has the same lowest bit and none above it in
common. -/
theorem land_neg {n w : Nat} (h : 0 < n) (hw : n < 2 ^ w) : n &&& (2 ^ w - n) = lowBit n := by
  fun_induction lowBit n generalizing w with
  | case1 n hn =>
    obtain ⟨k, rfl⟩ : ∃ k, w = k + 1 :=
      Nat.exists_eq_succ_of_ne_zero (by rintro rfl; omega)
    rw [Nat.pow_succ] at hw ⊢
    have hodd : n % 2 = 1 := by omega
    have hhalf : (2 ^ k * 2 - n) / 2 = 2 ^ k - (n / 2 + 1) := by omega
    have hdisjoint : n / 2 &&& (2 ^ k - (n / 2 + 1)) = 0 := by
      refine Nat.eq_of_testBit_eq fun i => ?_
      rw [Nat.testBit_and, Nat.testBit_two_pow_sub_succ (by omega), Nat.zero_testBit]
      cases (n / 2).testBit i <;> simp
    have hboth : n % 2 = 1 ∧ (2 ^ k * 2 - n) % 2 = 1 := by omega
    rw [land_eq, hhalf, hdisjoint, if_pos hboth]
  | case2 n hn ih =>
    obtain ⟨k, rfl⟩ : ∃ k, w = k + 1 :=
      Nat.exists_eq_succ_of_ne_zero (by rintro rfl; omega)
    rw [Nat.pow_succ] at hw ⊢
    have hhalf : (2 ^ k * 2 - n) / 2 = 2 ^ k - n / 2 := by omega
    have heven : ¬ (n % 2 = 1 ∧ (2 ^ k * 2 - n) % 2 = 1) := by omega
    rw [land_eq, hhalf, ih (by omega) (by omega), if_neg heven, Nat.add_zero]

/-- Going down clears the lowest bit of a word, going up adds it. -/
theorem toNat_lowBit {w : Nat} {i : BitVec w} (h : i ≠ 0) :
    (i &&& (i - 1)).toNat = i.toNat - lowBit i.toNat ∧ (i &&& -i).toNat = lowBit i.toNat := by
  have hpos : 0 < i.toNat := by
    refine Nat.pos_of_ne_zero fun hzero => h ?_
    exact BitVec.eq_of_toNat_eq (by simpa using hzero)
  have hlt := i.isLt
  have hone : (1 : BitVec w).toNat = 1 := by
    have hw : 1 < 2 ^ w := by omega
    exact (BitVec.toNat_ofNat 1 w).trans (Nat.mod_eq_of_lt hw)
  have hpred : (i - 1).toNat = i.toNat - 1 := by
    rw [BitVec.toNat_sub_of_le (BitVec.le_def.mpr (by rw [hone]; exact hpos)), hone]
  have hneg : (-i).toNat = 2 ^ w - i.toNat := by
    rw [BitVec.toNat_neg, Nat.mod_eq_of_lt (by omega)]
  rw [BitVec.toNat_and, BitVec.toNat_and, hpred, hneg]
  exact ⟨land_pred hpos, land_neg hpos hlt⟩

/-! ## A count that may fail -/

namespace Tally

/-- How many numbers are at most `i`, if all entries that are read exist. -/
def upTo? (t : Tally) (i : Nat) : Option Nat :=
  if _h : 0 < i then do
    let count ← t.counts[i]?
    let others ← upTo? t (i - lowBit i)
    return count + others
  else some 0
termination_by i
decreasing_by
  have := lowBit_pos i
  omega

/-- Counts one more in all entries up to the bound that cover `i`, if they exist. -/
def addFrom? (bound : Nat) (counts : Array Nat) (i : Nat) : Option (Array Nat) :=
  if _h : i ≤ bound then
    if i < counts.size then addFrom? bound (counts.modify i (· + 1)) (i + lowBit i) else none
  else some counts
termination_by bound + 1 - i
decreasing_by
  have := lowBit_pos i
  omega

theorem upTo?_eq {t : Tally} {i : Nat} (h : i < t.counts.size) : t.upTo? i = some (t.upTo i) := by
  fun_induction upTo t i with
  | case1 i hpos ih =>
    have hrest := ih (by omega)
    rw [upTo?, dif_pos hpos, hrest, Array.getElem?_eq_getElem h, getD_of_lt h]
    rfl
  | case2 i hpos => rw [upTo?, dif_neg hpos]

theorem addFrom?_eq {bound : Nat} {counts : Array Nat} (h : counts.size = bound + 1) (i : Nat) :
    addFrom? bound counts i = some (addFrom counts i) := by
  fun_induction addFrom counts i with
  | case1 counts i hlt ih =>
    rw [addFrom?, dif_pos (by omega), if_pos hlt, ih (by rwa [Array.size_modify])]
  | case2 counts i hge => rw [addFrom?, dif_neg (by omega)]

end Tally

/-- Counts inversions, if every access is in range and no difference is below zero. -/
def inversions? (bound : Nat) (places : List Nat) : Option Nat :=
  go (.empty bound) 0 places
where
  /-- Each place is behind the larger ones among the `seen` places before it. -/
  go (t : Tally) (seen : Nat) : List Nat → Option Nat
    | [] => some 0
    | p :: rest => do
      let before ← t.upTo? (p + 1)
      let larger ← minus? seen before
      let counts ← Tally.addFrom? bound t.counts (p + 1)
      let others ← go ⟨counts⟩ (seen + 1) rest
      return larger + others

/-- No more numbers are at most `i` than there are. -/
theorem Tally.Counts.upTo_le {t : Tally} {bound : Nat} {xs : List Nat} (h : t.Counts bound xs)
    {i : Nat} (hi : i ≤ bound) : t.upTo i ≤ xs.length := by
  rw [h.upTo_eq hi]
  exact List.countP_le_length

theorem inversions?_eq {bound : Nat} {places : List Nat} (h : ∀ p ∈ places, p < bound) :
    inversions? bound places = some (inversions bound places) := by
  have hgo : ∀ (rest : List Nat) (t : Tally) (xs : List Nat), t.Counts bound xs →
      (∀ p ∈ rest, p < bound) →
      inversions?.go bound t xs.length rest = some (inversions.go t xs.length rest) := by
    intro rest
    induction rest with
    | nil => exact fun _ _ _ _ => rfl
    | cons p rest ih =>
      intro t xs ht hrest
      obtain ⟨hp, hrest⟩ := List.forall_mem_cons.mp hrest
      have hread : t.upTo? (p + 1) = some (t.upTo (p + 1)) :=
        Tally.upTo?_eq (by rw [ht.size]; omega)
      have hlarger : minus? xs.length (t.upTo (p + 1)) = some (xs.length - t.upTo (p + 1)) :=
        minus?_eq (ht.upTo_le (i := p + 1) hp)
      have hnoted : Tally.addFrom? bound t.counts (p + 1) =
          some (t.add (p + 1)).counts := Tally.addFrom?_eq ht.size (p + 1)
      have hothers := ih (t.add (p + 1)) ((p + 1) :: xs) (ht.add (Nat.succ_pos p)) hrest
      rw [List.length_cons] at hothers
      simp only [inversions?.go, hread, hlarger, hnoted, Option.bind_eq_bind, Option.bind_some,
        hothers, inversions.go]
      rfl
  exact hgo places _ [] (Tally.counts_empty bound) h

namespace Layered

variable {g : Layered}

/-! ## Segments in the order of their ends -/

/-- The places of both ends of the segments below a layer, in the order of the upper ends and then
the lower ones. -/
def segmentsFrom (g : Layered) (places : Array Nat) (layer : List Nat) : List (Nat × Nat) :=
  (layer.flatMap fun v => (g.below v).map fun w =>
    (places.getD v 0, places.getD w 0)).mergeSort fun s t => s.1 < t.1 ∨ s.1 = t.1 ∧ s.2 ≤ t.2

/-- The segments sorted by both ends are those of one node after the other, sorted by their lower
ends alone. -/
theorem map_snd_segmentsFrom {layers : Layers} (h : g.Complete layers) {layer : List Nat}
    (hl : layer ∈ layers) : (g.segmentsFrom (g.places layers) layer).map Prod.snd =
      g.lowerPlaces (g.places layers) layer := by
  let block (v : Nat) : List (Nat × Nat) :=
    (((g.below v).map ((g.places layers).getD · 0)).mergeSort).map ((g.places layers).getD v 0, ·)
  have hsorted : (layer.flatMap block).Pairwise fun s t => s.1 < t.1 ∨ s.1 = t.1 ∧ s.2 ≤ t.2 := by
    refine List.pairwise_flatMap.mpr ⟨fun v _ => ?_, ?_⟩
    · exact List.pairwise_map.mpr
        ((List.pairwise_mergeSort' (· ≤ ·) _).imp fun hle => .inr ⟨rfl, hle⟩)
    · refine (pairwise_place h hl).imp fun hplace s hs t ht => .inl ?_
      obtain ⟨p, -, rfl⟩ := List.mem_map.mp hs
      obtain ⟨q, -, rfl⟩ := List.mem_map.mp ht
      exact hplace.2
  have hperm : (layer.flatMap block).Perm (g.segmentsFrom (g.places layers) layer) := by
    refine List.Perm.trans ?_ (List.mergeSort_perm _ _).symm
    refine List.Perm.flatMap_left _ fun v _ => ?_
    have hblock := (List.mergeSort_perm ((g.below v).map ((g.places layers).getD · 0))
      fun a b => decide (a ≤ b)).map ((g.places layers).getD v 0, ·)
    rwa [List.map_map] at hblock
  have hmerged : (g.segmentsFrom (g.places layers) layer).Pairwise
      fun s t => s.1 < t.1 ∨ s.1 = t.1 ∧ s.2 ≤ t.2 := by
    refine (List.pairwise_mergeSort ?_ ?_ _).imp fun hst => by simpa using hst
    · intro a b c hab hbc
      simp only [decide_eq_true_eq] at *
      omega
    · intro a b
      simp only [Bool.or_eq_true, decide_eq_true_eq]
      omega
  have heq : layer.flatMap block = g.segmentsFrom (g.places layers) layer := by
    refine List.Perm.eq_of_pairwise (fun s t _ _ hst hts => ?_) hsorted hmerged hperm
    exact Prod.ext (by omega) (by omega)
  rw [← heq, List.map_flatMap, lowerPlaces]
  refine List.flatMap_congr fun v _ => ?_
  rw [List.map_map]
  exact List.map_id _

/-! ## Segments from layer to layer -/

section Reading

variable {v : Nat}

theorem getElem?_rank (hv : v < g.size) : g.rank[v]? = some (g.rankOf v) := getElem?_of_lt hv 0

theorem Sized.getElem?_up (hs : g.Sized) (hv : v < g.size) : g.up[v]? = some (g.above v) :=
  getElem?_of_lt (hs.up.symm ▸ hv) []

theorem Sized.getElem?_down (hs : g.Sized) (hv : v < g.size) : g.down[v]? = some (g.below v) :=
  getElem?_of_lt (hs.down.symm ▸ hv) []

end Reading

/-- Where in their layers all nodes stand. -/
def places? (g : Layered) (layers : Layers) : Option (Array Nat) :=
  layers.foldlM note? (Array.replicate g.size 0)

theorem places?_eq {layers : Layers} (h : g.Complete layers) :
    g.places? layers = some (g.places layers) := by
  refine (foldlM_eq_some (P := fun ps : Array Nat => ps.size = g.size) ?_
    Array.size_replicate).1
  intro places hsize layer hl
  refine ⟨note?_eq fun v hv => hsize.symm ▸ h.lt_size hl hv, ?_⟩
  exact (size_writes places layer.zipIdx).trans hsize

theorem getElem?_places {layers : Layers} {v : Nat} (hv : v < g.size) :
    (g.places layers)[v]? = some ((g.places layers).getD v 0) :=
  getElem?_of_lt ((g.size_places layers).symm ▸ hv) 0

def segments? (g : Layered) (places : Array Nat) (layer : List Nat) :
    Option (List (Nat × Nat)) := do
  let rows ← layer.mapM fun v => do
    (← g.down[v]?).mapM fun w => do return (← places[v]?, ← places[w]?)
  return rows.flatten.mergeSort fun s t => s.1 < t.1 ∨ s.1 = t.1 ∧ s.2 ≤ t.2

theorem segments?_eq (hg : g.Joined) (hs : g.Sized) {layers : Layers} {layer : List Nat}
    (hl : ∀ v ∈ layer, v < g.size) : g.segments? (g.places layers) layer =
      some (g.segmentsFrom (g.places layers) layer) := by
  have hrows : (layer.mapM fun v => do
      (← g.down[v]?).mapM fun w => do
        return ((← (g.places layers)[v]?), (← (g.places layers)[w]?))) =
      some (layer.map fun v => (g.below v).map fun w =>
        ((g.places layers).getD v 0, (g.places layers).getD w 0)) := by
    refine mapM_eq_some fun v hv => ?_
    have hsize := hl v hv
    rw [bind_of_eq_some (hs.getElem?_down hsize)]
    refine mapM_eq_some fun w hw => ?_
    rw [bind_of_eq_some (getElem?_places hsize),
      bind_of_eq_some (getElem?_places (mem_below hg hsize hw).1)]
    rfl
  rw [segments?, bind_of_eq_some hrows, segmentsFrom, List.flatMap_def]
  rfl

/-- The count of all crossings, layer by layer, if nothing in it fails. -/
def crossings? (g : Layered) (layers : Layers) : Option Nat := do
  go (← g.places? layers) layers
where
  go (places : Array Nat) : Layers → Option Nat
    | upper :: lower :: rest => do
      let segments ← g.segments? places upper
      let count ← inversions? lower.length (segments.map Prod.snd)
      let others ← go places (lower :: rest)
      return count + others
    | _ => some 0

theorem crossings?_eq (hg : g.Joined) (hs : g.Sized) {layers : Layers} (h : g.Complete layers) :
    g.crossings? layers = some (g.crossings layers) := by
  have hgo : ∀ (rest done : Layers), layers = done ++ rest →
      crossings?.go g (g.places layers) rest = some (g.crossingsFrom (g.places layers) rest) := by
    intro rest
    induction rest with
    | nil => exact fun _ _ => rfl
    | cons upper rest ih =>
      intro done hsplit
      cases rest with
      | nil => rfl
      | cons lower rest =>
        have hupper : upper ∈ layers := by simp [hsplit]
        have hothers := ih (done ++ [upper]) (by simp [hsplit])
        have hcount := inversions?_eq (lowerPlaces_lt hg h hsplit)
        rw [← map_snd_segmentsFrom h hupper] at hcount
        rw [crossings?.go, bind_of_eq_some (segments?_eq hg hs fun v hv => h.lt_size hupper hv),
          bind_of_eq_some hcount, bind_of_eq_some hothers, map_snd_segmentsFrom h hupper]
        rfl
  rw [crossings?, bind_of_eq_some (places?_eq h)]
  exact hgo layers [] rfl

/-! ## Pairs of segments -/

/-- Two segments from one layer to the next are in opposite orders at their upper and at their lower
ends. -/
def Opposed (upper lower : List Nat) (s t : Arc) : Prop :=
  upper.idxOf s.1 < upper.idxOf t.1 ∧ lower.idxOf t.2 < lower.idxOf s.2 ∨
    upper.idxOf t.1 < upper.idxOf s.1 ∧ lower.idxOf s.2 < lower.idxOf t.2

instance (upper lower : List Nat) (s t : Arc) : Decidable (Opposed upper lower s t) :=
  inferInstanceAs (Decidable (_ ∨ _))

/-- The segments from one layer to another. -/
def between (g : Layered) (upper lower : List Nat) : List Arc :=
  g.arcs.filter fun s => s.1 ∈ upper ∧ s.2 ∈ lower

/-- How many unordered pairs of segments between neighbouring layers are in opposite orders. -/
def opposedPairs (g : Layered) : Layers → Nat
  | upper :: lower :: rest =>
    pairSum (fun s t => if Opposed upper lower s t then 1 else 0) (g.between upper lower) +
      opposedPairs g (lower :: rest)
  | _ => 0

theorem opposed_comm (upper lower : List Nat) (s t : Arc) :
    Opposed upper lower s t ↔ Opposed upper lower t s := Or.comm

/-- Segments with an end in common are in no opposite orders. -/
theorem not_opposed_of_end {s t : Arc} (h : s.1 = t.1 ∨ s.2 = t.2) (upper lower : List Nat) :
    ¬ Opposed upper lower s t := by
  rintro (⟨hupper, hlower⟩ | ⟨hupper, hlower⟩)
  · rcases h with h | h
    · exact absurd (h ▸ hupper) (Nat.lt_irrefl _)
    · exact absurd (h ▸ hlower) (Nat.lt_irrefl _)
  · rcases h with h | h
    · exact absurd (h ▸ hupper) (Nat.lt_irrefl _)
    · exact absurd (h ▸ hlower) (Nat.lt_irrefl _)

theorem place_eq_idxOf_layer {layers done rest : Layers} {layer : List Nat} (h : g.Complete layers)
    (hsplit : layers = done ++ layer :: rest) {v : Nat} (hv : v ∈ layer) :
    g.place layers v = layer.idxOf v := by
  obtain ⟨hsize, hrank⟩ := (mem_layer h hsplit).mp hv
  have hget : layers.getD done.length [] = layer := by
    rw [hsplit, List.getD_append_right _ _ _ _ (Nat.le_refl _), Nat.sub_self]
    rfl
  rw [place_eq_idxOf h hsize, hrank, hget]

/-- The pairs of segments between two neighbouring layers, node by node. -/
theorem pairSum_between (hg : g.Joined) {layers done rest : Layers} {upper lower : List Nat}
    (h : g.Complete layers) (hsplit : layers = done ++ upper :: lower :: rest) :
    pairSum (fun s t => if Opposed upper lower s t then 1 else 0) (g.between upper lower) =
      pairSum (fun v w => g.endCrossings layers (g.below v) (g.below w)) upper := by
  have hnext : layers = (done ++ [upper]) ++ lower :: rest := by simp [hsplit]
  have hmem : upper ∈ layers := by simp [hsplit]
  have hlower : ∀ s ∈ g.arcs, s.1 ∈ upper → s.2 ∈ lower := by
    intro s hs hupper
    have hrank := ((mem_layer h hsplit).mp hupper).2
    refine (mem_layer h hnext).mpr ⟨(hg.bound s hs).2, ?_⟩
    rw [hg.rank s hs, hrank, List.length_append, List.length_singleton]
  have hstart : g.between upper lower = g.arcs.filter (·.1 ∈ upper) := by
    refine List.filter_congr fun s hs => ?_
    exact decide_eq_decide.mpr ⟨fun h => h.1, fun h => ⟨h, hlower s hs h⟩⟩
  have hnodup : upper.Nodup := (List.nodup_flatten.mp h.nodup_flatten).1 upper hmem
  have hsymm : ∀ s t, (if Opposed upper lower s t then 1 else 0) =
      if Opposed upper lower t s then 1 else 0 := fun s t => by simp only [opposed_comm]
  rw [hstart, ← pairSum_perm hsymm (filter_mem_perm Prod.fst g.arcs hnodup), pairSum_flatMap]
  -- Segments from one node share their upper end.
  have hwithin : ∀ v, pairSum (fun s t => if Opposed upper lower s t then 1 else 0)
      (g.arcs.filter (·.1 = v)) = 0 := by
    refine fun v => pairSum_eq_zero (List.pairwise_of_forall_mem_list fun s hs t ht => ?_)
    have hs : s.1 = v := by simpa using (List.mem_filter.mp hs).2
    have ht : t.1 = v := by simpa using (List.mem_filter.mp ht).2
    exact if_neg (not_opposed_of_end (.inl (hs.trans ht.symm)) upper lower)
  have hnone : (upper.map fun _ => 0).sum = 0 := by simp
  simp only [hwithin, hnone, Nat.zero_add]
  refine pairSum_congr ((List.Pairwise.and_mem.mp (pairwise_place h hmem)).imp ?_)
  rintro v w ⟨hv, hw, -, hplace⟩
  rw [place_eq_idxOf_layer h hsplit hv, place_eq_idxOf_layer h hsplit hw] at hplace
  rw [hg.below v ((mem_layer h hsplit).mp hv).1, hg.below w ((mem_layer h hsplit).mp hw).1,
    endCrossings, crossSum_map]
  refine crossSum_congr fun s hsmem t htmem => ?_
  obtain ⟨hs, hsv⟩ := List.mem_filter.mp hsmem
  obtain ⟨ht, htw⟩ := List.mem_filter.mp htmem
  obtain rfl : s.1 = v := by simpa using hsv
  obtain rfl : t.1 = w := by simpa using htw
  rw [place_eq_idxOf_layer h hnext (hlower s hs hv), place_eq_idxOf_layer h hnext (hlower t ht hw)]
  simp only [Opposed, inverted, hplace, Nat.lt_asymm hplace, true_and, false_and, or_false]

theorem crossings_eq_opposedPairs (hg : g.Joined) {layers : Layers} (h : g.Complete layers) :
    g.crossings layers = g.opposedPairs layers := by
  have hfrom : ∀ (rest done : Layers), layers = done ++ rest →
      g.crossingsFrom (g.places layers) rest = g.opposedPairs rest := by
    intro rest
    induction rest with
    | nil => exact fun _ _ => rfl
    | cons upper rest ih =>
      intro done hsplit
      cases rest with
      | nil => rfl
      | cons lower rest =>
        rw [crossingsFrom, inversions_eq (lowerPlaces_lt hg h hsplit), pairSum_lowerPlaces,
          ← pairSum_between hg h hsplit, ih (done ++ [upper]) (by simp [hsplit])]
        rfl
  exact hfrom layers [] rfl

/-- What is counted when crossings are counted. -/
structure Counted (g : Layered) (layers : Layers) : Prop where
  /-- No access is out of range, and no difference below zero. -/
  checked : g.crossings? layers = some (g.crossings layers)
  pairs : g.crossings layers = g.opposedPairs layers
  /-- Segments with an end in common do not count. -/
  apart : ∀ (upper lower : List Nat) (s t : Arc), s.1 = t.1 ∨ s.2 = t.2 →
    ¬ Opposed upper lower s t
  /-- On words of any width the steps through a tally clear the lowest bit or add it. -/
  words : ∀ (w : Nat) (i : BitVec w), i ≠ 0 →
    (i &&& (i - 1)).toNat = i.toNat - lowBit i.toNat ∧ (i &&& -i).toNat = lowBit i.toNat

/-- **Crossings are counted exactly.** Whatever arrangement the layers have, the tallies count the
unordered pairs of segments between neighbouring layers whose ends are in opposite orders, each
segment on its own however many are parallel, and nothing on the way can fail. -/
theorem counted_ofEdges {ranks : Array Nat} {edges : List (Option Arc)} (h : LeadDown ranks edges)
    {layers : Layers} (hp : Permuted layers (ofEdges ranks edges).arrange) :
    (ofEdges ranks edges).Counted layers := by
  have hg := joined_ofEdges h
  have hcomplete := (complete_arrange (ofEdges ranks edges)).permuted hp
  exact {
    checked := crossings?_eq hg (sized_ofEdges ranks edges) hcomplete
    pairs := crossings_eq_opposedPairs hg hcomplete
    apart := fun upper lower s t hend => not_opposed_of_end hend upper lower
    words := fun w i hi => toNat_lowBit hi }

/-- Two parallel segments each cross one of two others; the fourth shares their lower end. -/
theorem counted_ofEdges_parallel :
    LeadDown #[0, 0, 1, 1] [some (0, 3), some (0, 3), some (1, 2), some (1, 3)] ∧
      Permuted [[1, 0], [3, 2]] (ofEdges #[0, 0, 1, 1]
        [some (0, 3), some (0, 3), some (1, 2), some (1, 3)]).arrange ∧
      (ofEdges #[0, 0, 1, 1] [some (0, 3), some (0, 3), some (1, 2), some (1, 3)]).crossings?
        [[1, 0], [3, 2]] = some 2 := by
  have hdown : LeadDown #[0, 0, 1, 1] [some (0, 3), some (0, 3), some (1, 2), some (1, 3)] := by
    intro a ha
    simp only [List.mem_cons, Option.some.injEq, List.not_mem_nil, or_false] at ha
    rcases ha with rfl | rfl | rfl | rfl <;> decide
  have hfirst : (ofEdges #[0, 0, 1, 1]
      [some (0, 3), some (0, 3), some (1, 2), some (1, 3)]).arrange = [[0, 1], [3, 2]] := by
    rw [arrange, trail, byRank_eq_range (by decide)]
    rfl
  have hp : Permuted [[1, 0], [3, 2]] (ofEdges #[0, 0, 1, 1]
      [some (0, 3), some (0, 3), some (1, 2), some (1, 3)]).arrange :=
    hfirst ▸ .cons (by decide) (.cons (by decide) .nil)
  have hcounted := counted_ofEdges hdown hp
  have hpairs : (ofEdges #[0, 0, 1, 1]
      [some (0, 3), some (0, 3), some (1, 2), some (1, 3)]).opposedPairs [[1, 0], [3, 2]] = 2 := by
    decide +kernel
  exact ⟨hdown, hp, hcounted.checked.trans (congrArg some (hcounted.pairs.trans hpairs))⟩

end Layered
end Tiered.Layering
