import Mathlib.Data.Nat.Cast.Defs
import Tiered.Proofs.Guarded.Layered
import Tiered.Proofs.Layout.Placement

/-!
# Nothing in placing nodes can fail

* `isotonicFit?_eq`: the last two pools are read at the end of the stack as long as it has two;
* `offsets?_eq`: the gap before a node is read unless the node is the first of its layer;
* `placeLayer?_eq`, `alongLayers?_eq`: coordinates are read and written at nodes, and layers and
  their gaps at the numbers of layers;
* `acrossLayers?_eq`: depths and centres are read at ranks.
-/

namespace Tiered.Layout

open Layering (Layered Layers Building)

variable {K : Type} [Scalar K]

/-! ## The isotonic fit -/

/-- Merges the last two pools of a stack until they do not descend. -/
def settle? (pools : List (Pool K)) : Option (List (Pool K)) :=
  if _h : 2 ≤ pools.length then do
    let last ← pools[pools.length - 1]?
    let before ← pools[pools.length - 2]?
    if before.value ≤ last.value then return pools
    else settle? (pools.take (pools.length - 2) ++ [before.merge last])
  else some pools
termination_by pools.length
decreasing_by
  simp only [List.length_append, List.length_take, List.length_singleton]
  omega

def pools? (targets : List (K × K)) : Option (List (Pool K)) :=
  targets.foldlM (fun pools t => settle? (pools ++ [⟨t.1, t.2, 1⟩])) []

def isotonicFit? (targets weights : List K) : Option (List K) := do
  return (← pools? (targets.zip weights)).flatMap fun b => List.replicate b.count b.value

theorem settle?_eq (b : Pool K) (blocks : List (Pool K)) :
    settle? (blocks.reverse ++ [b]) = some (absorb b blocks).reverse := by
  induction blocks generalizing b with
  | nil =>
    rw [settle?, dif_neg (by simp)]
    rfl
  | cons a rest ih =>
    have hfront : (a :: rest).reverse ++ [b] = rest.reverse ++ [a, b] := by simp
    have hlength : (rest.reverse ++ [a, b]).length = rest.length + 2 := by simp
    have hlast : (rest.reverse ++ [a, b])[rest.length + 1]? = some b := by simp
    have hbefore : (rest.reverse ++ [a, b])[rest.length]? = some a := by simp
    have htake : (rest.reverse ++ [a, b]).take rest.length = rest.reverse := by simp
    rw [hfront, settle?, hlength, dif_pos (Nat.le_add_left 2 _), Nat.add_sub_cancel,
      Nat.add_succ_sub_one, bind_of_eq_some hlast, bind_of_eq_some hbefore, htake, absorb]
    split
    · simp
    · exact ih (a.merge b)

theorem pools?_eq (targets : List (K × K)) :
    pools? targets = some (pools targets).reverse := by
  have hstep : ∀ blocks : List (Pool K), True → ∀ t ∈ targets,
      settle? (blocks.reverse ++ [⟨t.1, t.2, 1⟩]) = some (absorb ⟨t.1, t.2, 1⟩ blocks).reverse ∧
        True := fun blocks _ t _ => ⟨settle?_eq _ blocks, trivial⟩
  exact And.left (foldlM_eq_some_of (c := []) List.reverse hstep trivial)

theorem isotonicFit?_eq (targets weights : List K) :
    isotonicFit? targets weights = some (isotonicFit targets weights) := by
  rw [isotonicFit?, bind_of_eq_some (pools?_eq _)]
  rfl

/-! ## Gaps -/

section Gaps

variable {g : Layered}

/-- Whether a node is virtual, as it was noted when it was added. -/
def virtual? (g : Layered) (v : Nat) : Option Bool := (Building.ofLayered g).isVirtual[v]?

theorem virtual?_eq {v : Nat} (hv : v < g.size) : virtual? g v = some (g.isVirtual v) := by
  simp [virtual?, Building.ofLayered, hv]

/-- The extents of all nodes; virtual ones have none. -/
def extents (g : Layered) (widths : Array K) : Array K :=
  (Array.range g.size).map (widths.getD · 0)

theorem getElem?_extents {v : Nat} (hv : v < g.size) (widths : Array K) :
    (extents g widths)[v]? = some (widths.getD v 0) := by
  simp [extents, hv]

def gap? (g : Layered) (widths : Array K) (spacing : Spacing K) (a b : Nat) : Option K := do
  let width := (← widths[a]?) + (← widths[b]?)
  return width / 2 + spacing.between (← virtual? g a) (← virtual? g b)

def gaps? (g : Layered) (widths : Array K) (spacing : Spacing K) : List Nat → Option (List K)
  | a :: b :: rest => do
    let gap ← gap? g widths spacing a b
    return gap :: (← gaps? g widths spacing (b :: rest))
  | _ => some []

theorem gaps?_eq {layer : List Nat} (h : ∀ v ∈ layer, v < g.size) (widths : Array K)
    (spacing : Spacing K) :
    gaps? g (extents g widths) spacing layer = some (gaps g widths spacing layer) := by
  fun_induction gaps g widths spacing layer with
  | case1 a b rest ih =>
    have ha : a < g.size := h a List.mem_cons_self
    have hb : b < g.size := h b (List.mem_cons_of_mem _ List.mem_cons_self)
    have hgap : gap? g (extents g widths) spacing a b =
        some ((widths.getD a 0 + widths.getD b 0) / 2 +
          spacing.between (g.isVirtual a) (g.isVirtual b)) := by
      rw [gap?, bind_of_eq_some (getElem?_extents ha widths),
        bind_of_eq_some (getElem?_extents hb widths), bind_of_eq_some (virtual?_eq ha),
        bind_of_eq_some (virtual?_eq hb)]
      rfl
    rw [gaps?, bind_of_eq_some hgap,
      bind_of_eq_some (ih fun v hv => h v (List.mem_cons_of_mem _ hv))]
    rfl
  | case2 layer hshort =>
    rcases layer with _ | ⟨a, _ | ⟨b, rest⟩⟩
    · rfl
    · rfl
    · exact absurd rfl (hshort a b rest)

/-- The place of node `i` of a layer, given that of the node before it. -/
def advance? (gaps : List K) (before : K) (i : Nat) : Option K :=
  if 0 < i then do return before + (← gaps[← minus? i 1]?) else some before

def offset? (gaps : List K) (s : K × List K) (i : Nat) : Option (K × List K) := do
  let along ← advance? gaps s.1 i
  return (along, s.2 ++ [along])

/-- Where the nodes of a layer are if each keeps the gap to the one before it. -/
def offsets? (gaps : List K) (count : Nat) : Option (List K) := do
  return (← (List.range count).foldlM (offset? gaps) (0, [])).2

theorem getD_offsets_succ {start d : K} {gaps : List K} {i : Nat} (hi : i < gaps.length) :
    (offsets start gaps).getD (i + 1) d = (offsets start gaps).getD i d + gaps[i] := by
  induction gaps generalizing start i with
  | nil => exact absurd hi (Nat.not_lt_zero i)
  | cons gap rest ih =>
    cases i with
    | zero => cases rest <;> rfl
    | succ i => exact ih (Nat.lt_of_succ_lt_succ hi)

theorem offsets?_eq {gaps : List K} {count : Nat} (h : count ≤ gaps.length + 1) :
    offsets? gaps count = some ((offsets 0 gaps).take count) := by
  have hfirst : ((offsets 0 gaps).getD 0 0 : K) = 0 := by cases gaps <;> rfl
  have hsteps : ∀ i < count, offset? gaps
      ((offsets 0 gaps).getD (i - 1) 0, (offsets 0 gaps).take i) i =
        some ((offsets 0 gaps).getD i 0, (offsets 0 gaps).take (i + 1)) := by
    intro i hi
    have hnext : (offsets 0 gaps).take (i + 1) =
        (offsets 0 gaps).take i ++ [(offsets 0 gaps).getD i 0] := by
      rw [List.take_succ_eq_append_getElem (by rw [length_offsets]; omega),
        List.getD_eq_getElem]
    have halong : advance? gaps ((offsets 0 gaps).getD (i - 1) 0) i =
        some ((offsets 0 gaps).getD i 0) := by
      cases i with
      | zero => rfl
      | succ i =>
        have hgap : gaps[i]? = some gaps[i] := List.getElem?_eq_getElem (by omega)
        rw [advance?, if_pos (Nat.succ_pos i), bind_of_eq_some (minus?_eq (Nat.le_add_left 1 i)),
          Nat.add_sub_cancel, bind_of_eq_some hgap, getD_offsets_succ (by omega)]
        rfl
    rw [offset?, bind_of_eq_some halong, hnext]
    rfl
  have hloop := foldlM_range_eq_some
    (fun i => ((offsets 0 gaps).getD (i - 1) 0, (offsets 0 gaps).take i)) hsteps
  rw [Nat.zero_sub, hfirst, List.take_zero] at hloop
  rw [offsets?, bind_of_eq_some hloop]
  rfl

end Gaps

/-! ## Along the layers -/

section Along

variable {g : Layered} {xs widths : Array K} {spacing : Spacing K}

def assign? (xs : Array K) (nodes : List Nat) (values : List K) : Option (Array K) :=
  writes? xs (nodes.zip values)

omit [Scalar K] in
theorem assign?_eq {nodes : List Nat} (h : ∀ v ∈ nodes, v < xs.size) (values : List K) :
    assign? xs nodes values = some (assign xs nodes values) :=
  writes?_eq fun _ he => h _ (List.of_mem_zip he).1

def pull? (g : Layered) (v w : Nat) : Option K := do
  match ← virtual? g v, ← virtual? g w with
  | false, false => return 1
  | true, true => return 8
  | _, _ => return 2

theorem pull?_eq {v w : Nat} (hv : v < g.size) (hw : w < g.size) :
    pull? g v w = some (pull g v w : K) := by
  rw [pull?, bind_of_eq_some (virtual?_eq hv), bind_of_eq_some (virtual?_eq hw), pull]
  cases g.isVirtual v <;> cases g.isVirtual w <;> rfl

def pulls? (g : Layered) (xs : Array K) (v : Nat) : Option (K × K) := do
  let above ← g.up[v]?
  let below ← g.down[v]?
  (above ++ below).foldlM (fun sums w => do
    let weight ← pull? g v w
    return (sums.1 + weight * (← xs[w]?), sums.2 + weight)) (0, 0)

def wish? (g : Layered) (xs : Array K) (v : Nat) : Option (K × K) := do
  let (sum, total) ← pulls? g xs v
  if 0 < total then return (sum / total, total) else return ((← xs[v]?), 1 / 100)

/-- Places a layer, if there are nodes in it. -/
def placeLayer? (g : Layered) (xs : Array K) (layer : List Nat) (gaps : List K) :
    Option (Array K) :=
  if layer.isEmpty then some xs else do
    let along ← offsets? gaps layer.length
    let wishes ← layer.mapM (wish? g xs)
    let targets := wishes.zipWith (fun wish offset => wish.1 - offset) along
    let fitted ← isotonicFit? targets (wishes.map (·.2))
    assign? xs layer (fitted.zipWith (· + ·) along)

/-- Puts the nodes of each layer one behind the other. -/
def packed? (size : Nat) (layers : List (List Nat × List K)) : Option (Array K) :=
  layers.foldlM (fun xs l => do assign? xs l.1 (← offsets? l.2 l.1.length))
    (Array.replicate size 0)

/-- Places layer `r`. -/
def placeRank? (g : Layered) (layers : Layers) (gaps : List (List K)) (xs : Array K) (r : Nat) :
    Option (Array K) := do
  placeLayer? g xs (← layers[r]?) (← gaps[r]?)

/-- The layers in the order in which a pass places them. -/
def passOrder (pass depth : Nat) : List Nat :=
  if pass % 2 = 0 then List.range depth else (List.range depth).reverse

def alongLayers? (g : Layered) (layers : Layers) (widths : Array K) (spacing : Spacing K) :
    Option (Array K) := do
  let gaps ← layers.mapM (gaps? g widths spacing)
  (List.range passes).foldlM
    (fun xs pass => (passOrder pass layers.length).foldlM (placeRank? g layers gaps) xs)
    (← packed? g.size (layers.zip gaps))

/-- All nodes of a layer have an offset. -/
theorem offsets?_gaps {layer : List Nat} (hne : layer ≠ []) :
    offsets? (gaps g widths spacing layer) layer.length =
      some (offsets 0 (gaps g widths spacing layer)) := by
  have hpos : 0 < layer.length := List.length_pos_iff.mpr hne
  have hlength : (gaps g widths spacing layer).length = layer.length - 1 := length_gaps layer
  rw [offsets?_eq (by omega), List.take_of_length_le]
  rw [length_offsets]
  omega

theorem wish?_eq (hg : g.Joined) (hs : g.Sized) (hsize : xs.size = g.size) {v : Nat}
    (hv : v < g.size) : wish? g xs v = some (wish g xs v) := by
  have hread : ∀ w < g.size, xs[w]? = some (xs.getD w 0) :=
    fun w hw => getElem?_of_lt (hsize.symm ▸ hw) 0
  have hbound : ∀ w ∈ g.above v ++ g.below v, w < g.size := by
    intro w hw
    rcases List.mem_append.mp hw with hw | hw
    · exact (Layered.mem_above hg hv hw).1
    · exact (Layered.mem_below hg hv hw).1
  have hpulls : pulls? g xs v = some (pulls g xs v) := by
    rw [pulls?, bind_of_eq_some (hs.getElem?_up hv), bind_of_eq_some (hs.getElem?_down hv)]
    refine (foldlM_eq_some (P := fun _ => True) (fun sums _ w hw => ⟨?_, trivial⟩) trivial).1
    rw [bind_of_eq_some (pull?_eq hv (hbound w hw)), bind_of_eq_some (hread w (hbound w hw))]
    rfl
  rw [wish?, bind_of_eq_some hpulls, wish]
  generalize pulls g xs v = p
  obtain ⟨sum, total⟩ := p
  dsimp only
  split
  · rfl
  · rw [bind_of_eq_some (hread v hv)]
    rfl

theorem placeLayer?_eq (hg : g.Joined) (hs : g.Sized) (hsize : xs.size = g.size)
    {layer : List Nat} (hl : ∀ v ∈ layer, v < g.size) :
    placeLayer? g xs layer (gaps g widths spacing layer) =
      some (placeLayer g xs layer (gaps g widths spacing layer)) := by
  rw [placeLayer?]
  split
  · rename_i hempty
    rw [List.isEmpty_iff.mp hempty]
    rfl
  · rename_i hne
    have hne : layer ≠ [] := fun h => hne (List.isEmpty_iff.mpr h)
    have hwishes : layer.mapM (wish? g xs) = some (layer.map (wish g xs)) :=
      mapM_eq_some fun v hv => wish?_eq hg hs hsize (hl v hv)
    rw [bind_of_eq_some (offsets?_gaps hne), bind_of_eq_some hwishes,
      bind_of_eq_some (isotonicFit?_eq _ _)]
    exact assign?_eq (fun v hv => hsize.symm ▸ hl v hv) _

/-- The layers with their gaps. -/
def withGaps (g : Layered) (widths : Array K) (spacing : Spacing K) (layers : Layers) :
    List (List Nat × List K) :=
  layers.map fun layer => (layer, gaps g widths spacing layer)

/-- Packing gets through, and gives every node a place. -/
theorem packed?_eq {layers : Layers} (h : g.Complete layers) (widths : Array K)
    (spacing : Spacing K) : packed? g.size (withGaps g widths spacing layers) =
      some (packed g.size (withGaps g widths spacing layers)) ∧
        (packed g.size (withGaps g widths spacing layers)).size = g.size := by
  refine foldlM_eq_some (P := fun xs : Array K => xs.size = g.size) ?_ Array.size_replicate
  intro xs hsize l hl
  obtain ⟨layer, hlayer, rfl⟩ := List.mem_map.mp hl
  refine ⟨?_, (size_assign _ _ _).trans hsize⟩
  by_cases hne : layer = []
  · subst hne
    rfl
  · rw [bind_of_eq_some (offsets?_gaps hne)]
    exact assign?_eq (fun v hv => hsize.symm ▸ h.lt_size hlayer hv) _

theorem pass?_eq (hg : g.Joined) (hs : g.Sized) {layers : Layers} (h : g.Complete layers)
    (widths : Array K) (spacing : Spacing K) (hsize : xs.size = g.size) {order : List Nat}
    (horder : ∀ r ∈ order, r < layers.length) :
    order.foldlM (placeRank? g layers (layers.map (gaps g widths spacing))) xs =
        some (placeLayers g xs
          (withGaps g widths spacing (order.map fun r => layers.getD r []))) ∧
      (placeLayers g xs
        (withGaps g widths spacing (order.map fun r => layers.getD r []))).size = g.size := by
  rw [placeLayers, withGaps, List.foldl_map, List.foldl_map]
  refine foldlM_eq_some (P := fun xs : Array K => xs.size = g.size) ?_ hsize
  intro xs hsize r hr
  refine ⟨?_, (size_placeLayer _ _ _ _).trans hsize⟩
  have hlayer : layers[r]? = some (layers.getD r []) := getElem?_eq_getD (horder r hr) []
  have hgaps : (layers.map (gaps g widths spacing))[r]? =
      some (gaps g widths spacing (layers.getD r [])) := by
    rw [List.getElem?_map, hlayer]
    rfl
  rw [placeRank?, bind_of_eq_some hlayer, bind_of_eq_some hgaps]
  exact placeLayer?_eq hg hs hsize fun v hv =>
    h.lt_size (List.mem_of_getElem? hlayer) hv

/-- **Nothing in placing nodes along their layers can fail**, and each node has a place. -/
theorem alongLayers?_eq (hg : g.Joined) (hs : g.Sized) {layers : Layers} (h : g.Complete layers)
    (widths : Array K) (spacing : Spacing K) :
    alongLayers? g layers (extents g widths) spacing =
        some (alongLayers g layers widths spacing) ∧
      (alongLayers g layers widths spacing).size = g.size := by
  have hgaps : layers.mapM (gaps? g (extents g widths) spacing) =
      some (layers.map (gaps g widths spacing)) :=
    mapM_eq_some fun layer hl => gaps?_eq (fun v hv => h.lt_size hl hv) widths spacing
  have hzip : layers.zip (layers.map (gaps g widths spacing)) = withGaps g widths spacing layers :=
    List.map_prod_left_eq_zip.symm
  have hlisted : (List.range layers.length).map (fun r => layers.getD r []) = layers :=
    List.ext_getElem (by simp) fun i hi hi' => by simp [hi']
  obtain ⟨hpacked, hsize⟩ := packed?_eq h widths spacing
  rw [alongLayers?, bind_of_eq_some hgaps, hzip, bind_of_eq_some hpacked]
  refine foldlM_eq_some (P := fun xs : Array K => xs.size = g.size)
    (g := fun xs pass => placeLayers g xs (if pass % 2 = 0 then withGaps g widths spacing layers
      else (withGaps g widths spacing layers).reverse)) ?_ hsize
  intro xs hsize pass _
  unfold passOrder
  split
  · have hpass := pass?_eq hg hs h widths spacing hsize
      fun r hr => List.mem_range.mp hr
    rwa [hlisted] at hpass
  · have hpass := pass?_eq hg hs h widths spacing hsize
      fun r hr => List.mem_range.mp (List.mem_reverse.mp hr)
    rwa [List.map_reverse, hlisted, withGaps, List.map_reverse] at hpass

end Along

/-! ## From rank to rank -/

section Across

variable {g : Layered} {heights : Array K}

/-- The depth of each of `depth` ranks. -/
def rankDepths? (g : Layered) (depth : Nat) (heights : Array K) : Option (Array K) :=
  (List.range g.size).foldlM (fun depths v => do
    let height ← heights[v]?
    modify? depths (← g.rank[v]?) (max · height)) (Array.replicate depth 0)

def acrossLayers? (g : Layered) (depth : Nat) (heights : Array K) (rankSep : K) :
    Option (Array K) := do
  let middle := (centres rankSep 0 (← rankDepths? g depth heights).toList).toArray
  let across ← (List.range g.size).mapM fun v => do middle[← g.rank[v]?]?
  return across.toArray

theorem rankDepths?_eq (g : Layered) (heights : Array K) :
    rankDepths? g g.depth (extents g heights) = some (rankDepths g heights) ∧
      (rankDepths g heights).size = g.depth := by
  refine foldlM_eq_some (P := fun depths : Array K => depths.size = g.depth) ?_
    Array.size_replicate
  intro depths hsize v hv
  have hv : v < g.size := List.mem_range.mp hv
  have hrank : g.rankOf v < depths.size := hsize.symm ▸ Layered.rankOf_lt_depth hv
  refine ⟨?_, Array.size_modify.trans hsize⟩
  rw [bind_of_eq_some (getElem?_extents hv heights), bind_of_eq_some (Layered.getElem?_rank hv)]
  exact modify?_eq hrank _

/-- **Nothing in placing ranks can fail.** -/
theorem acrossLayers?_eq (g : Layered) (heights : Array K) (rankSep : K) :
    acrossLayers? g g.depth (extents g heights) rankSep =
      some (acrossLayers g heights rankSep) := by
  obtain ⟨hdepths, hsize⟩ := rankDepths?_eq g heights
  have hacross : (List.range g.size).mapM (fun v => do
      (centres rankSep 0 (rankDepths g heights).toList).toArray[← g.rank[v]?]?) =
      some ((List.range g.size).map fun v =>
        (centres rankSep 0 (rankDepths g heights).toList).toArray.getD (g.rankOf v) 0) := by
    refine mapM_eq_some fun v hv => ?_
    have hv : v < g.size := List.mem_range.mp hv
    rw [bind_of_eq_some (Layered.getElem?_rank hv)]
    refine getElem?_of_lt ?_ 0
    rw [List.size_toArray, length_centres, Array.length_toList, hsize]
    exact Layered.rankOf_lt_depth hv
  rw [acrossLayers?, bind_of_eq_some hdepths, bind_of_eq_some hacross]
  refine congrArg some (Array.ext ?_ fun v hv hv' => ?_)
  · simp [acrossLayers, Layered.size]
  · have hv : v < g.rank.size := by simpa [Layered.size] using hv
    simp [acrossLayers, Layered.rankOf, hv]

end Across
end Tiered.Layout
