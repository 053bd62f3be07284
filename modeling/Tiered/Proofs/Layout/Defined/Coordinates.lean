import Tiered.Proofs.Checked
import Tiered.Proofs.Layout.Placement

/-!
# Coordinates are defined

Nodes are placed by sums, halves and weighted means. No weight is zero (`Pool.Weighs`,
`isDefined_wish`), so whatever the sizes and the gaps are, all nodes and bends get coordinates along
the layers (`allDefined_alongLayers`) and from rank to rank (`allDefined_acrossLayers`).
-/

namespace Tiered.Layout

open Checked
open Layering (Layered Layers)

variable {K : Type} [Field K] [LinearOrder K] [FloorRing K] [PlaneFunctions K]

/-! ## Arrays of coordinates -/

/-- Every number has a coordinate. -/
def AllDefined (xs : Array (Checked K)) : Prop := ∀ v, (xs.getD v 0).IsDefined

theorem allDefined_replicate (n : Nat) : AllDefined (Array.replicate n (0 : Checked K)) := by
  intro v
  rw [getD_replicate]
  exact isDefined_ofNat 0

theorem AllDefined.assign {xs : Array (Checked K)} (h : AllDefined xs) (nodes : List Nat)
    {values : List (Checked K)} (hvalues : ∀ x ∈ values, x.IsDefined) :
    AllDefined (assign xs nodes values) := by
  apply List.foldlRecOn (motive := AllDefined)
  · exact h
  · intro ys hys e he v
    rw [getD_setIfInBounds]
    split
    · exact hvalues _ (List.of_mem_zip he).2
    · exact hys v

theorem allDefined_toArray {xs : List (Checked K)} (h : ∀ x ∈ xs, x.IsDefined) :
    AllDefined xs.toArray := by
  intro v
  by_cases hv : v < xs.toArray.size
  · rw [getD_of_lt hv]
    exact h _ (by simp)
  · rw [getD_of_size_le (by omega)]
    exact isDefined_ofNat 0

/-! ## Gaps -/

structure Spacing.IsDefined (s : Spacing (Checked K)) : Prop where
  nodeSep : s.nodeSep.IsDefined
  edgeSep : s.edgeSep.IsDefined

theorem Spacing.IsDefined.between {s : Spacing (Checked K)} (h : s.IsDefined) (a b : Bool) :
    (s.between a b).IsDefined := by
  cases a <;> cases b <;> simp [Spacing.between, h.nodeSep, h.edgeSep]

section Gaps

variable {g : Layered} {widths : Array (Checked K)} {spacing : Spacing (Checked K)}

theorem isDefined_gaps (hwidths : AllDefined widths) (hspacing : spacing.IsDefined)
    (layer : List Nat) : ∀ gap ∈ gaps g widths spacing layer, gap.IsDefined := by
  fun_induction gaps g widths spacing layer with
  | case1 a b rest ih =>
    refine List.forall_mem_cons.mpr ⟨?_, ?_⟩
    · rw [isDefined_add, isDefined_half, isDefined_add]
      exact ⟨⟨hwidths a, hwidths b⟩, hspacing.between _ _⟩
    · exact ih
  | case2 => exact List.forall_mem_nil _

theorem isDefined_offsets {start : Checked K} (hstart : start.IsDefined) {gaps : List (Checked K)}
    (hgaps : ∀ gap ∈ gaps, gap.IsDefined) : ∀ x ∈ offsets start gaps, x.IsDefined := by
  induction gaps generalizing start with
  | nil => simpa [offsets] using hstart
  | cons gap rest ih =>
    obtain ⟨hgap, hrest⟩ := List.forall_mem_cons.mp hgaps
    exact List.forall_mem_cons.mpr ⟨hstart, ih (isDefined_add.mpr ⟨hstart, hgap⟩) hrest⟩

end Gaps

/-! ## Wishes -/

section Wishes

variable {g : Layered} {xs : Array (Checked K)}

theorem isDefined_pull (g : Layered) (v w : Nat) : (pull g v w : Checked K).IsDefined := by
  unfold pull
  split <;> exact isDefined_ofNat _

theorem isDefined_pulls (h : AllDefined xs) (v : Nat) : (pulls g xs v).1.IsDefined := by
  apply List.foldlRecOn (motive := fun sums : Checked K × Checked K => sums.1.IsDefined)
  · exact isDefined_ofNat 0
  · intro sums hsums w _
    rw [isDefined_add, isDefined_mul]
    exact ⟨hsums, isDefined_pull g v w, h w⟩

variable [IsStrictOrderedRing K]

/-- A node wants to be somewhere, and with some weight. -/
theorem isDefined_wish (h : AllDefined xs) (v : Nat) :
    (wish g xs v).1.IsDefined ∧ 0 < (wish g xs v).2 := by
  simp only [wish]
  split
  · rename_i htotal
    exact ⟨(isDefined_pulls h v).div_of_pos htotal, htotal⟩
  · exact ⟨h v, pos_div (pos_ofNat Nat.one_pos) (pos_ofNat (by decide))⟩

end Wishes

/-! ## The isotonic fit -/

section Fit

/-- A pool has a value, and a weight that its value may be divided by. -/
structure Pool.Weighs (b : Pool (Checked K)) : Prop where
  value : b.value.IsDefined
  weight : 0 < b.weight

variable [IsStrictOrderedRing K]

theorem Pool.Weighs.merge {a b : Pool (Checked K)} (ha : a.Weighs) (hb : b.Weighs) :
    (a.merge b).Weighs := by
  have hweight := pos_add ha.weight hb.weight
  constructor
  · apply IsDefined.div_of_pos _ hweight
    rw [isDefined_add, isDefined_mul, isDefined_mul]
    exact ⟨⟨ha.value, .of_pos ha.weight⟩, hb.value, .of_pos hb.weight⟩
  · exact hweight

theorem weighs_absorb {b : Pool (Checked K)} (hb : b.Weighs) {blocks : List (Pool (Checked K))}
    (h : ∀ a ∈ blocks, a.Weighs) : ∀ a ∈ absorb b blocks, a.Weighs := by
  induction blocks generalizing b with
  | nil => simpa [absorb] using hb
  | cons a rest ih =>
    obtain ⟨ha, hrest⟩ := List.forall_mem_cons.mp h
    unfold absorb
    split
    · exact List.forall_mem_cons.mpr ⟨hb, h⟩
    · exact ih (ha.merge hb) hrest

theorem weighs_pools {targets : List (Checked K × Checked K)}
    (h : ∀ t ∈ targets, t.1.IsDefined ∧ 0 < t.2) : ∀ b ∈ pools targets, b.Weighs := by
  unfold pools
  apply List.foldlRecOn (motive := fun blocks : List (Pool (Checked K)) => ∀ b ∈ blocks, b.Weighs)
  · exact nofun
  · intro blocks hblocks t ht
    exact weighs_absorb ⟨(h t ht).1, (h t ht).2⟩ hblocks

theorem isDefined_isotonicFit {targets weights : List (Checked K)}
    (htargets : ∀ t ∈ targets, t.IsDefined) (hweights : ∀ w ∈ weights, 0 < w) :
    ∀ x ∈ isotonicFit targets weights, x.IsDefined := by
  have hpools : ∀ b ∈ pools (targets.zip weights), b.Weighs := by
    apply weighs_pools
    intro t ht
    obtain ⟨htarget, hweight⟩ := List.of_mem_zip ht
    exact ⟨htargets _ htarget, hweights _ hweight⟩
  intro x hx
  obtain ⟨b, hb, hxb⟩ := List.mem_flatMap.mp hx
  rw [List.eq_of_mem_replicate hxb]
  exact (hpools b (List.mem_reverse.mp hb)).value

end Fit

/-! ## Along the layers -/

section Along

theorem forall_zipWith {α β γ : Type} {f : α → β → γ} {p : γ → Prop} {as : List α} {bs : List β}
    (h : ∀ a ∈ as, ∀ b ∈ bs, p (f a b)) : ∀ c ∈ as.zipWith f bs, p c := by
  intro c hc
  rw [← List.map_uncurry_zip_eq_zipWith] at hc
  obtain ⟨⟨a, b⟩, hab, rfl⟩ := List.mem_map.mp hc
  obtain ⟨ha, hb⟩ := List.of_mem_zip hab
  exact h a ha b hb

/-- Layers with gaps that are defined. -/
def GapsDefined (layers : List (List Nat × List (Checked K))) : Prop :=
  ∀ l ∈ layers, ∀ gap ∈ l.2, gap.IsDefined

theorem allDefined_packed (size : Nat) {layers : List (List Nat × List (Checked K))}
    (h : GapsDefined layers) : AllDefined (packed size layers) := by
  apply List.foldlRecOn (motive := AllDefined)
  · exact allDefined_replicate size
  · intro xs hxs l hl
    exact hxs.assign _ (isDefined_offsets (isDefined_ofNat 0) (h l hl))

variable [IsStrictOrderedRing K] {g : Layered} {widths : Array (Checked K)}
  {spacing : Spacing (Checked K)}

theorem AllDefined.placeLayer {xs : Array (Checked K)} (h : AllDefined xs) (layer : List Nat)
    {gaps : List (Checked K)} (hgaps : ∀ gap ∈ gaps, gap.IsDefined) :
    AllDefined (placeLayer g xs layer gaps) := by
  have halong := isDefined_offsets (isDefined_ofNat 0) hgaps
  have hwishes : ∀ s ∈ layer.map (wish g xs), s.1.IsDefined ∧ 0 < s.2 := by
    intro s hs
    obtain ⟨v, -, rfl⟩ := List.mem_map.mp hs
    exact isDefined_wish h v
  apply h.assign
  apply forall_zipWith
  intro x hx offset hoffset
  rw [isDefined_add]
  refine ⟨isDefined_isotonicFit (forall_zipWith ?_) ?_ x hx, halong offset hoffset⟩
  · intro s hs offset hoffset
    exact isDefined_sub.mpr ⟨(hwishes s hs).1, halong offset hoffset⟩
  · intro w hw
    obtain ⟨s, hs, rfl⟩ := List.mem_map.mp hw
    exact (hwishes s hs).2

theorem AllDefined.placeLayers {xs : Array (Checked K)} (h : AllDefined xs)
    {layers : List (List Nat × List (Checked K))} (hlayers : GapsDefined layers) :
    AllDefined (placeLayers g xs layers) := by
  apply List.foldlRecOn (motive := AllDefined)
  · exact h
  · intro xs hxs l hl
    exact hxs.placeLayer _ (hlayers l hl)

theorem allDefined_alongLayers (layers : Layers) (hwidths : AllDefined widths)
    (hspacing : spacing.IsDefined) : AllDefined (alongLayers g layers widths spacing) := by
  have hgaps : GapsDefined (layers.map fun layer => (layer, gaps g widths spacing layer)) := by
    intro l hl
    obtain ⟨layer, -, rfl⟩ := List.mem_map.mp hl
    exact isDefined_gaps hwidths hspacing layer
  apply List.foldlRecOn (motive := AllDefined)
  · exact allDefined_packed _ hgaps
  · intro xs hxs pass _
    apply hxs.placeLayers
    split
    · exact hgaps
    · intro l hl
      exact hgaps l (List.mem_reverse.mp hl)

end Along

/-! ## From rank to rank -/

section Across

variable {g : Layered} {heights : Array (Checked K)} {rankSep : Checked K}

theorem isDefined_centres (hsep : rankSep.IsDefined) {top : Checked K} (htop : top.IsDefined)
    {depths : List (Checked K)} (hdepths : ∀ d ∈ depths, d.IsDefined) :
    ∀ c ∈ centres rankSep top depths, c.IsDefined := by
  induction depths generalizing top with
  | nil => exact nofun
  | cons d rest ih =>
    obtain ⟨hd, hrest⟩ := List.forall_mem_cons.mp hdepths
    refine List.forall_mem_cons.mpr ⟨?_, ?_⟩
    · rw [isDefined_add, isDefined_half]
      exact ⟨htop, hd⟩
    · apply ih _ hrest
      rw [isDefined_add, isDefined_add]
      exact ⟨htop, hd, hsep⟩

theorem allDefined_rankDepths (g : Layered) (heights : Array (Checked K)) :
    AllDefined (rankDepths g heights) := by
  apply List.foldlRecOn (motive := AllDefined)
  · exact allDefined_replicate _
  · intro depths hdepths v _ r
    rw [getD_modify]
    split
    · exact isDefined_max.mpr (.inl (hdepths r))
    · exact hdepths r

theorem allDefined_acrossLayers (hsep : rankSep.IsDefined) :
    AllDefined (acrossLayers g heights rankSep) := by
  have hcentres : AllDefined (centres rankSep 0 (rankDepths g heights).toList).toArray := by
    apply allDefined_toArray
    apply isDefined_centres hsep (isDefined_ofNat 0)
    intro d hd
    obtain ⟨r, hr, rfl⟩ := Array.mem_iff_getElem.mp (Array.mem_toList_iff.mp hd)
    have hdepth := allDefined_rankDepths g heights r
    rwa [getD_of_lt hr] at hdepth
  intro v
  by_cases hv : v < (acrossLayers g heights rankSep).size
  · rw [getD_of_lt hv]
    simp only [acrossLayers, Array.getElem_map]
    exact hcentres _
  · rw [getD_of_size_le (Nat.le_of_not_lt hv)]
    exact isDefined_ofNat 0

end Across

end Tiered.Layout
