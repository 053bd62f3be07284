import Tiered.Layout.Placement
import Tiered.Proofs.Layering.Layers
import Tiered.Proofs.Layout.Isotonic

/-!
# Placed nodes keep their distances

On either axis each thing needs some room to both sides, and things that follow one another are
apart if the room of both fits between their centres.

* `keepsGaps_iff`: neighbours keep their gaps if the places without the gaps before them ascend;
* `keepsGaps_packInto`: running sums of gaps keep them; `keepsGaps_placeLayer`: so does an isotonic
  fit on top of them, wherever the nodes were before;
* `laid_alongLayers`: hence all layers keep their gaps, however often some of them are placed;
* `spaced_alongLayers`: nodes with room to both sides are then set apart in each layer;
* `acrossLayers_apart`: ranks are set apart by the depth of their nodes.
-/

namespace Tiered.Layout

open Layering (Layered Layers)

/-! ## Room on an axis -/

section Room

variable {K : Type} [Field K] [LinearOrder K] {α : Type} {room : α → K}

/-- The second is placed behind the first, with the room of both between them. -/
def Behind (room : α → K) (p q : α × K) : Prop := p.2 + (room p.1 + room q.1) ≤ q.2

/-- Things in a row, each of which is behind all before it. -/
def Apart (room : α → K) (placed : List (α × K)) : Prop := placed.Pairwise (Behind room)

variable [IsStrictOrderedRing K]

/-- It is enough that neighbours are apart. -/
theorem apart_of_isChain {placed : List (α × K)} (hroom : ∀ p ∈ placed, 0 ≤ room p.1)
    (h : placed.IsChain (Behind room)) : Apart room placed := by
  induction placed with
  | nil => exact List.Pairwise.nil
  | cons p rest ih =>
    cases rest with
    | nil => exact List.pairwise_singleton _ _
    | cons q rest =>
      obtain ⟨hpq, hchain⟩ := List.isChain_cons_cons.mp h
      have hrest := ih (fun r hr => hroom r (List.mem_cons_of_mem _ hr)) hchain
      have hq := hroom q (List.mem_cons_of_mem _ List.mem_cons_self)
      refine List.pairwise_cons.mpr ⟨?_, hrest⟩
      intro r hr
      rcases List.mem_cons.mp hr with rfl | hr
      · exact hpq
      · have hqr := (List.pairwise_cons.mp hrest).1 r hr
        unfold Behind at *
        linarith

end Room

/-! ## Writing a layer -/

section Writing

variable {K : Type}

theorem size_assign (xs : Array K) (layer : List Nat) (values : List K) :
    (assign xs layer values).size = xs.size :=
  size_writes _ _

theorem getD_assign_of_notMem {layer : List Nat} {v : Nat} (hv : v ∉ layer) (xs : Array K)
    (values : List K) (d : K) : (assign xs layer values).getD v d = xs.getD v d := by
  refine getD_writes_of_notMem ?_ xs d
  intro hmem
  obtain ⟨e, he, rfl⟩ := List.mem_map.mp hmem
  exact hv (List.of_mem_zip he).1

/-- The nodes of a layer have what was written for them. -/
theorem map_getD_assign {layer : List Nat} {values : List K}
    (hlength : layer.length ≤ values.length) (hd : layer.Nodup) {xs : Array K}
    (hb : ∀ v ∈ layer, v < xs.size) (d : K) :
    layer.map ((assign xs layer values).getD · d) = values.take layer.length := by
  have hkeys : (layer.zip values).map Prod.fst = layer := List.map_fst_zip hlength
  refine List.ext_getElem (by simpa using hlength) fun i hi _ => ?_
  have hi : i < layer.length := by simpa using hi
  rw [List.getElem_map, List.getElem_take]
  refine getD_writes_of_mem (by rwa [hkeys]) ?_ (hb _ (List.getElem_mem hi)) d
  exact List.mem_iff_getElem.mpr ⟨i, by simpa using ⟨hi, by omega⟩, List.getElem_zip⟩

end Writing

/-! ## Along the layers -/

section Share

variable {K : Type}

/-- The part of the gaps around it that a node asks for. -/
def Spacing.share (s : Spacing K) (virtual : Bool) : K :=
  if virtual then s.edgeSep else s.nodeSep

variable [Field K]

/-- The room of a node to both sides: half of its width and half of its share of the gaps. -/
def roomOf (g : Layered) (widths : Array K) (spacing : Spacing K) (v : Nat) : K :=
  half (widths.getD v 0 + spacing.share (g.isVirtual v))

variable [LinearOrder K]

/-- The nodes of a layer are set apart. -/
def Spaced (room : Nat → K) (xs : Array K) (layer : List Nat) : Prop :=
  layer.Pairwise fun v w => xs.getD v 0 + (room v + room w) ≤ xs.getD w 0

/-- It is enough that neighbours are set apart. -/
theorem spaced_of_isChain [IsStrictOrderedRing K] {room : Nat → K} (hroom : ∀ v, 0 ≤ room v)
    {xs : Array K} {layer : List Nat}
    (h : layer.IsChain fun v w => xs.getD v 0 + (room v + room w) ≤ xs.getD w 0) :
    Spaced room xs layer := by
  refine @List.IsChain.pairwise _ _ _ ⟨fun {u v w} huv hvw => ?_⟩ h
  have hv := hroom v
  linarith

end Share

section Running

variable {K : Type} [Scalar K] {g : Layered} {widths : Array K} {spacing : Spacing K}

theorem length_offsets (start : K) (gaps : List K) :
    (offsets start gaps).length = gaps.length + 1 := by
  induction gaps generalizing start with
  | nil => rfl
  | cons gap rest ih => rw [offsets, List.length_cons, ih, List.length_cons]

theorem length_gaps (layer : List Nat) :
    (gaps g widths spacing layer).length = layer.length - 1 := by
  fun_induction gaps g widths spacing layer with
  | case1 a b rest ih => simpa using ih
  | case2 layer hshort =>
    match layer with
    | [] => rfl
    | [_] => rfl
    | a :: b :: rest => exact absurd rfl (hshort a b rest)

theorem length_le_offsets (start : K) (layer : List Nat) :
    layer.length ≤ (offsets start (gaps g widths spacing layer)).length := by
  rw [length_offsets, length_gaps]
  omega

theorem size_placeLayer (g : Layered) (xs : Array K) (layer : List Nat) (gaps : List K) :
    (placeLayer g xs layer gaps).size = xs.size :=
  size_assign _ _ _

theorem length_centres (rankSep top : K) (depths : List K) :
    (centres rankSep top depths).length = depths.length := by
  induction depths generalizing top with
  | nil => rfl
  | cons d rest ih => rw [centres, List.length_cons, ih, List.length_cons]

end Running

section Along

variable {K : Type} [Field K] [LinearOrder K] [FloorRing K] [PlaneFunctions K]
  {g : Layered} {widths : Array K} {spacing : Spacing K}

/-- Neighbours in a layer are as far apart as half of their widths and the gap between them. -/
def KeepsGaps (g : Layered) (widths : Array K) (spacing : Spacing K) (xs : Array K)
    (layer : List Nat) : Prop :=
  layer.IsChain fun a b =>
    half (widths.getD a 0 + widths.getD b 0) +
        spacing.between (g.isVirtual a) (g.isVirtual b) ≤
      xs.getD b 0 - xs.getD a 0

theorem exists_offsets_eq (start : K) (gaps : List K) :
    ∃ rest, offsets start gaps = start :: rest := by
  cases gaps with
  | nil => exact ⟨_, rfl⟩
  | cons gap rest => exact ⟨_, rfl⟩

/-- The places of a layer after it was moved to its wishes. -/
def wished (g : Layered) (xs : Array K) (layer : List Nat) (gaps : List K) : List K :=
  let along := offsets 0 gaps
  let wishes := layer.map (wish g xs)
  let targets := wishes.zipWith (fun wish offset => wish.1 - offset) along
  (isotonicFit targets (wishes.map (·.2))).zipWith (· + ·) along

/-- The places of a layer without the gaps, as close to its wishes as it can be. -/
def fitted (g : Layered) (xs : Array K) (layer : List Nat) (gaps : List K) : List K :=
  isotonicFit ((layer.map (wish g xs)).zipWith (fun wish offset => wish.1 - offset)
    (offsets 0 gaps)) ((layer.map (wish g xs)).map (·.2))

theorem wished_eq (g : Layered) (xs : Array K) (layer : List Nat) (gaps : List K) :
    wished g xs layer gaps = (fitted g xs layer gaps).zipWith (· + ·) (offsets 0 gaps) := rfl

theorem placeLayer_eq (g : Layered) (xs : Array K) (layer : List Nat) (gaps : List K) :
    placeLayer g xs layer gaps = assign xs layer (wished g xs layer gaps) := by
  simp only [placeLayer, wished, Scalar.zero_eq]

theorem length_fitted (xs : Array K) (layer : List Nat) :
    (fitted g xs layer (gaps g widths spacing layer)).length = layer.length := by
  have hoffsets : layer.length ≤ (offsets 0 (gaps g widths spacing layer)).length :=
    length_le_offsets 0 layer
  rw [fitted, length_isotonicFit]
  · simpa using hoffsets
  · simpa using hoffsets

theorem length_wished (xs : Array K) (layer : List Nat) :
    (wished g xs layer (gaps g widths spacing layer)).length = layer.length := by
  have hoffsets : layer.length ≤ (offsets 0 (gaps g widths spacing layer)).length :=
    length_le_offsets 0 layer
  rw [wished_eq, List.length_zipWith, length_fitted]
  exact Nat.min_eq_left hoffsets

/-- What is not in the layer that is placed stays where it is. -/
theorem getD_placeLayer_of_notMem {layer : List Nat} {v : Nat} (hv : v ∉ layer) (xs : Array K)
    (gaps : List K) : (placeLayer g xs layer gaps).getD v 0 = xs.getD v 0 := by
  rw [placeLayer_eq, getD_assign_of_notMem hv]

/-- The coordinates after packing some layers, one after the other, into `xs`. -/
def packInto (g : Layered) (widths : Array K) (spacing : Spacing K) (xs : Array K)
    (layers : Layers) : Array K :=
  layers.foldl (fun xs layer => assign xs layer (offsets 0 (gaps g widths spacing layer))) xs

theorem packed_eq (layers : Layers) :
    packed g.size (layers.map fun layer => (layer, gaps g widths spacing layer)) =
      packInto g widths spacing (Array.replicate g.size 0) layers := by
  simp only [packed, packInto, Scalar.zero_eq, List.foldl_map]

theorem size_packInto (xs : Array K) (layers : Layers) :
    (packInto g widths spacing xs layers).size = xs.size :=
  List.foldlRecOn (motive := fun ys : Array K => ys.size = xs.size) _ _ rfl
    fun _ h _ _ => (size_assign _ _ _).trans h

theorem getD_packInto_of_notMem {layers : Layers} {v : Nat} (hv : v ∉ layers.flatten)
    (xs : Array K) : (packInto g widths spacing xs layers).getD v 0 = xs.getD v 0 := by
  induction layers generalizing xs with
  | nil => rfl
  | cons layer rest ih =>
    rw [List.flatten_cons, List.mem_append, not_or] at hv
    exact (ih hv.2 _).trans (getD_assign_of_notMem hv.1 _ _ _)

/-- The layers in the order in which they are placed. -/
def schedule (layers : Layers) : Layers :=
  (List.range passes).flatMap fun pass => if pass % 2 = 0 then layers else layers.reverse

theorem mem_of_mem_schedule {layers : Layers} {layer : List Nat} (h : layer ∈ schedule layers) :
    layer ∈ layers := by
  obtain ⟨pass, -, hlayer⟩ := List.mem_flatMap.mp h
  split at hlayer
  · exact hlayer
  · exact List.mem_reverse.mp hlayer

/-- The coordinates come from those packed by placing one layer after the other. -/
theorem alongLayers_eq (layers : Layers) :
    alongLayers g layers widths spacing =
      (schedule layers).foldl
        (fun xs layer => placeLayer g xs layer (gaps g widths spacing layer))
        (packed g.size (layers.map fun layer => (layer, gaps g widths spacing layer))) := by
  rw [schedule, List.foldl_flatMap]
  simp only [alongLayers, placeLayers]
  congr 1
  funext xs pass
  split
  · rw [List.foldl_map]
  · rw [← List.map_reverse, List.foldl_map]

/-- Without the gaps, a layer that was placed is where the fit has it. -/
theorem wished_freed (xs : Array K) (layer : List Nat) :
    (wished g xs layer (gaps g widths spacing layer)).zipWith (· - ·)
      (offsets 0 (gaps g widths spacing layer)) =
        fitted g xs layer (gaps g widths spacing layer) := by
  have hoffsets : layer.length ≤ (offsets 0 (gaps g widths spacing layer)).length :=
    length_le_offsets 0 layer
  rw [wished_eq]
  refine List.ext_getElem ?_ fun i hi _ => ?_
  · simp only [List.length_zipWith, length_fitted]
    omega
  · simp only [List.getElem_zipWith, add_sub_cancel_right]

variable [IsStrictOrderedRing K]

theorem Spacing.between_eq (s : Spacing K) (a b : Bool) :
    s.between a b = half (s.share a + s.share b) := by
  have hsame : ∀ x : K, x = half (x + x) := fun x => by rw [half_add, half_add_half]
  cases a with
  | false =>
    cases b with
    | false => exact hsame s.nodeSep
    | true => exact Scalar.div_two _
  | true =>
    cases b with
    | false => exact congrArg half (add_comm s.nodeSep s.edgeSep)
    | true => exact hsame s.edgeSep

/-- The gap between two neighbours is the room of both. -/
theorem gap_eq (g : Layered) (widths : Array K) (spacing : Spacing K) (a b : Nat) :
    half (widths.getD a 0 + widths.getD b 0) +
        spacing.between (g.isVirtual a) (g.isVirtual b) =
      roomOf g widths spacing a + roomOf g widths spacing b := by
  rw [Spacing.between_eq]
  simp only [roomOf, half_add]
  ring

theorem gaps_cons (g : Layered) (widths : Array K) (spacing : Spacing K) (a b : Nat)
    (rest : List Nat) :
    gaps g widths spacing (a :: b :: rest) =
      (roomOf g widths spacing a + roomOf g widths spacing b) ::
        gaps g widths spacing (b :: rest) := by
  rw [gaps, Scalar.div_two, Scalar.zero_eq, gap_eq]

theorem keepsGaps_iff_room {xs : Array K} {layer : List Nat} :
    KeepsGaps g widths spacing xs layer ↔ layer.IsChain fun a b =>
      xs.getD a 0 + (roomOf g widths spacing a + roomOf g widths spacing b) ≤ xs.getD b 0 := by
  simp only [KeepsGaps, gap_eq, le_sub_iff_add_le']

/-- Neighbours keep their gaps if what is left of the places without them ascends. -/
theorem keepsGaps_iff (start : K) {xs : Array K} {layer : List Nat} :
    KeepsGaps g widths spacing xs layer ↔
      ((layer.map (xs.getD · 0)).zipWith (· - ·)
        (offsets start (gaps g widths spacing layer))).Pairwise (· ≤ ·) := by
  rw [keepsGaps_iff_room, ← List.isChain_iff_pairwise]
  induction layer generalizing start with
  | nil => simp
  | cons a rest ih =>
    cases rest with
    | nil => simp [gaps, offsets]
    | cons b rest =>
      have hrest := ih (start + (roomOf g widths spacing a + roomOf g widths spacing b))
      obtain ⟨places, hplaces⟩ := exists_offsets_eq
        (start + (roomOf g widths spacing a + roomOf g widths spacing b))
        (gaps g widths spacing (b :: rest))
      rw [gaps_cons, offsets]
      rw [hplaces] at hrest ⊢
      simp only [List.map_cons, List.zipWith_cons_cons, List.isChain_cons_cons] at hrest ⊢
      rw [hrest]
      refine and_congr_left' ?_
      constructor <;> intro h <;> linarith

theorem KeepsGaps.congr {xs ys : Array K} {layer : List Nat}
    (h : KeepsGaps g widths spacing xs layer)
    (heq : ∀ v ∈ layer, ys.getD v 0 = xs.getD v 0) : KeepsGaps g widths spacing ys layer := by
  rw [keepsGaps_iff 0] at h ⊢
  rwa [List.map_congr_left heq]

/-- Nodes that are written at ascending places behind the running sums keep their gaps. -/
theorem keepsGaps_assign {layer : List Nat} {values : List K} (hd : layer.Nodup)
    (hlength : layer.length ≤ values.length) {xs : Array K} (hb : ∀ v ∈ layer, v < xs.size)
    (h : (values.zipWith (· - ·) (offsets 0 (gaps g widths spacing layer))).Pairwise (· ≤ ·)) :
    KeepsGaps g widths spacing (assign xs layer values) layer := by
  rw [keepsGaps_iff 0, map_getD_assign hlength hd hb]
  refine List.pairwise_iff_getElem.mpr fun i j hi hj hij => ?_
  simp only [List.length_zipWith, List.length_take] at hi hj
  have hij := List.pairwise_iff_getElem.mp h i j (by simp only [List.length_zipWith]; omega)
    (by simp only [List.length_zipWith]; omega) hij
  simpa only [List.getElem_zipWith, List.getElem_take] using hij

theorem keepsGaps_packInto {layers : Layers} (hd : layers.flatten.Nodup) {xs : Array K}
    (hb : ∀ layer ∈ layers, ∀ v ∈ layer, v < xs.size) :
    ∀ layer ∈ layers, KeepsGaps g widths spacing (packInto g widths spacing xs layers) layer := by
  induction layers generalizing xs with
  | nil => exact fun _ hl => nomatch hl
  | cons first rest ih =>
    rw [List.flatten_cons, List.nodup_append] at hd
    obtain ⟨hfirst, hrest, hdisjoint⟩ := hd
    intro layer hl
    rcases List.mem_cons.mp hl with rfl | hl
    · have hzero : ((offsets 0 (gaps g widths spacing layer)).zipWith (· - ·)
          (offsets 0 (gaps g widths spacing layer))).Pairwise (· ≤ ·) :=
        List.pairwise_iff_getElem.mpr fun i j hi hj _ => by simp
      refine (keepsGaps_assign hfirst (length_le_offsets 0 layer)
        (hb layer List.mem_cons_self) hzero).congr fun v hv => ?_
      exact getD_packInto_of_notMem (fun hmem => hdisjoint v hv v hmem rfl) _
    · refine ih hrest (fun layer hl v hv => ?_) layer hl
      rw [size_assign]
      exact hb layer (List.mem_cons_of_mem _ hl) v hv

theorem keepsGaps_placeLayer {layer : List Nat} (hd : layer.Nodup) {xs : Array K}
    (hb : ∀ v ∈ layer, v < xs.size) :
    KeepsGaps g widths spacing (placeLayer g xs layer (gaps g widths spacing layer)) layer := by
  rw [placeLayer_eq]
  refine keepsGaps_assign hd (length_wished xs layer).ge hb ?_
  rw [wished_freed]
  exact isotonicFit_ascending _ _

/-- Every node has a coordinate, and all layers keep their gaps. -/
structure Laid (g : Layered) (layers : Layers) (widths : Array K) (spacing : Spacing K)
    (xs : Array K) : Prop where
  size : xs.size = g.size
  keeps : ∀ layer ∈ layers, KeepsGaps g widths spacing xs layer

theorem laid_packed {layers : Layers} (h : g.Complete layers) :
    Laid g layers widths spacing
      (packed g.size (layers.map fun layer => (layer, gaps g widths spacing layer))) := by
  rw [packed_eq]
  refine ⟨(size_packInto _ _).trans Array.size_replicate, ?_⟩
  refine keepsGaps_packInto h.nodup_flatten fun layer hl v hv => ?_
  rw [Array.size_replicate]
  exact h.lt_size hl hv

theorem Laid.placeLayer {layers : Layers} (h : g.Complete layers) {xs : Array K}
    (hxs : Laid g layers widths spacing xs) {layer : List Nat} (hl : layer ∈ layers) :
    Laid g layers widths spacing (placeLayer g xs layer (gaps g widths spacing layer)) := by
  refine ⟨(size_placeLayer _ _ _ _).trans hxs.size, fun other hother => ?_⟩
  by_cases heq : other = layer
  · subst heq
    exact keepsGaps_placeLayer (h.nodup hl) fun v hv => hxs.size ▸ h.lt_size hl hv
  · refine (hxs.keeps other hother).congr fun v hv => ?_
    exact getD_placeLayer_of_notMem (fun hmem => heq (h.eq_of_mem hother hl hv hmem)) _ _

theorem laid_alongLayers {layers : Layers} (h : g.Complete layers) :
    Laid g layers widths spacing (alongLayers g layers widths spacing) := by
  rw [alongLayers_eq]
  exact List.foldlRecOn (motive := Laid g layers widths spacing) _ _ (laid_packed h)
    fun xs hxs layer hl => hxs.placeLayer h (mem_of_mem_schedule hl)

/-- Nodes with room to both sides are set apart in each layer. -/
theorem spaced_alongLayers (hroom : ∀ v, 0 ≤ roomOf g widths spacing v) {layers : Layers}
    (h : g.Complete layers) :
    ∀ layer ∈ layers,
      Spaced (roomOf g widths spacing) (alongLayers g layers widths spacing) layer := by
  intro layer hl
  exact spaced_of_isChain hroom (keepsGaps_iff_room.mp ((laid_alongLayers h).keeps layer hl))

end Along

/-! ## From rank to rank -/

section Across

variable {K : Type} [Field K] [LinearOrder K] {g : Layered} {heights : Array K} {rankSep : K}

/-- Makes the rank of a node as deep as the node. -/
def deepen (g : Layered) (heights : Array K) (depths : Array K) (v : Nat) : Array K :=
  depths.modify (g.rankOf v) (max · (heights.getD v 0))

theorem size_foldl_deepen (vs : List Nat) (depths : Array K) :
    (vs.foldl (deepen g heights) depths).size = depths.size :=
  List.foldlRecOn (motive := fun ds : Array K => ds.size = depths.size) _ _ rfl
    fun _ h _ _ => Array.size_modify.trans h

theorem le_deepen (depths : Array K) (v r : Nat) :
    depths.getD r 0 ≤ (deepen g heights depths v).getD r 0 := by
  rw [deepen, getD_modify]
  split
  · exact le_max_left _ _
  · exact le_refl _

theorem le_foldl_deepen (vs : List Nat) (depths : Array K) (r : Nat) :
    depths.getD r 0 ≤ (vs.foldl (deepen g heights) depths).getD r 0 :=
  List.foldlRecOn (motive := fun ds : Array K => depths.getD r 0 ≤ ds.getD r 0) _ _ (le_refl _)
    fun _ h v _ => le_trans h (le_deepen _ v r)

theorem height_le_foldl_deepen {vs : List Nat} {v : Nat} (hv : v ∈ vs) {depths : Array K}
    (hr : g.rankOf v < depths.size) :
    heights.getD v 0 ≤ (vs.foldl (deepen g heights) depths).getD (g.rankOf v) 0 := by
  induction vs generalizing depths with
  | nil => cases hv
  | cons w rest ih =>
    rcases List.mem_cons.mp hv with rfl | hv
    · refine le_trans ?_ (le_foldl_deepen rest _ _)
      rw [deepen, getD_modify, if_pos ⟨rfl, hr⟩]
      exact le_max_right _ _
    · exact ih hv (Array.size_modify.symm ▸ hr)

variable [FloorRing K] [PlaneFunctions K]

theorem rankDepths_eq (g : Layered) (heights : Array K) :
    rankDepths g heights =
      (List.range g.size).foldl (deepen g heights) (Array.replicate g.depth 0) := by
  unfold rankDepths deepen
  simp only [Scalar.zero_eq]

theorem size_rankDepths (g : Layered) (heights : Array K) :
    (rankDepths g heights).size = g.depth := by
  rw [rankDepths_eq, size_foldl_deepen, Array.size_replicate]

theorem rankDepths_nonneg (g : Layered) (heights : Array K) (r : Nat) :
    0 ≤ (rankDepths g heights).getD r 0 := by
  rw [rankDepths_eq]
  refine le_trans ?_ (le_foldl_deepen _ _ r)
  rw [getD_replicate]

theorem height_le_rankDepths {v : Nat} (hv : v < g.size) :
    heights.getD v 0 ≤ (rankDepths g heights).getD (g.rankOf v) 0 := by
  rw [rankDepths_eq]
  refine height_le_foldl_deepen (List.mem_range.mpr hv) ?_
  rw [Array.size_replicate]
  exact Layered.rankOf_lt_depth hv

theorem getD_acrossLayers {v : Nat} (hv : v < g.size) :
    (acrossLayers g heights rankSep).getD v 0 =
      (centres rankSep 0 (rankDepths g heights).toList).getD (g.rankOf v) 0 := by
  have hv' : v < g.rank.size := hv
  simp [acrossLayers, Layered.rankOf, Scalar.zero_eq, Array.getD_eq_getD_getElem?,
    List.getD_eq_getElem?_getD, hv']

variable [IsStrictOrderedRing K]

theorem apart_centres (hsep : 0 ≤ rankSep) (top : K) {depths : List K}
    (hdepths : ∀ d ∈ depths, 0 ≤ d) :
    Apart (fun d => half (d + rankSep)) (depths.zip (centres rankSep top depths)) := by
  refine apart_of_isChain ?_ ?_
  · intro p hp
    exact half_nonneg (add_nonneg (hdepths p.1 (List.of_mem_zip hp).1) hsep)
  · clear hdepths
    induction depths generalizing top with
    | nil => exact List.IsChain.nil
    | cons d rest ih =>
      cases rest with
      | nil => exact List.IsChain.singleton _
      | cons e rest =>
        refine List.isChain_cons_cons.mpr ⟨?_, ih (top + (d + rankSep))⟩
        have hd := half_add_half d
        have hrank := half_add_half rankSep
        simp only [Behind, Scalar.div_two, half_add]
        linarith

/-- The centres of nodes of different ranks are half the height of both and a gap apart. -/
theorem acrossLayers_apart (hsep : 0 ≤ rankSep) {v w : Nat} (hv : v < g.size) (hw : w < g.size)
    (h : g.rankOf v < g.rankOf w) :
    (acrossLayers g heights rankSep).getD v 0 +
        (half (heights.getD v 0 + heights.getD w 0) + rankSep) ≤
      (acrossLayers g heights rankSep).getD w 0 := by
  have hnonneg : ∀ d ∈ (rankDepths g heights).toList, 0 ≤ d := by
    intro d hd
    obtain ⟨r, hr, rfl⟩ := Array.mem_iff_getElem.mp (Array.mem_toList_iff.mp hd)
    have hdepth := rankDepths_nonneg g heights r
    rwa [getD_of_lt hr] at hdepth
  have hlength : (centres rankSep 0 (rankDepths g heights).toList).length = g.depth := by
    rw [length_centres, Array.length_toList, size_rankDepths]
  have hsize := size_rankDepths g heights
  have hrank := Layered.rankOf_lt_depth hw
  have hranks := List.pairwise_iff_getElem.mp (apart_centres hsep 0 hnonneg)
    (g.rankOf v) (g.rankOf w)
    (by rw [List.length_zip, hlength, Array.length_toList]; omega)
    (by rw [List.length_zip, hlength, Array.length_toList]; omega) h
  have hupper : heights.getD v 0 ≤ (rankDepths g heights)[g.rankOf v] := by
    rw [← getD_of_lt]
    exact height_le_rankDepths hv
  have hlower : heights.getD w 0 ≤ (rankDepths g heights)[g.rankOf w] := by
    rw [← getD_of_lt]
    exact height_le_rankDepths hw
  rw [getD_acrossLayers hv, getD_acrossLayers hw, List.getD_eq_getElem _ _ (by omega),
    List.getD_eq_getElem _ _ (by omega)]
  have hheights := half_le_half (add_le_add hupper hlower)
  have hrankSep := half_add_half rankSep
  simp only [Behind, List.getElem_zip, Array.getElem_toList, half_add] at hranks hheights ⊢
  linarith

end Across
end Tiered.Layout
