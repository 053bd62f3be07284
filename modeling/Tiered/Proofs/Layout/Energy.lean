import Tiered.Proofs.Layering.Crossings
import Tiered.Proofs.Layout.LeastSquares
import Tiered.Proofs.Layout.Placement

/-!
# Placing layers never costs energy

Segments pull their ends together, each with an energy that grows as the square of its length along
the layers.

* `energy`: the energy of all segments;
* `strain_sub_le`: as seen from one node, energy falls as the node comes closer to its wish;
* `squares_wished_le`: a layer that is placed is closer to its wishes than it was before, since its
  old places compete with the fit;
* `energy_eq`: the energy is the strain of the nodes of one layer and what is elsewhere;
* `energy_placeLayer_le`: so placing a layer that keeps its gaps does not cost energy;
* `alongLayers_eases`: hence energy falls from the packing on to the last pass, and the gaps are
  kept all the way.
-/

namespace Tiered.Layout

open Layering (Layered Layers Arc LeadDown Permuted)

variable {K : Type} [Field K] [LinearOrder K] [FloorRing K] [PlaneFunctions K] {g : Layered}

/-! ## Pulls -/

theorem pull_comm (g : Layered) (v w : Nat) : (pull g v w : K) = pull g w v := by
  unfold pull
  cases g.isVirtual v <;> cases g.isVirtual w <;> rfl

/-- The sums over the nodes that a node is pulled to. -/
theorem pulls_eq (g : Layered) (xs : Array K) (v : Nat) :
    pulls g xs v =
      (((g.above v ++ g.below v).map fun w => pull g v w * xs.getD w 0).sum,
        ((g.above v ++ g.below v).map fun w => (pull g v w : K)).sum) := by
  have hfold : ∀ (ws : List Nat) (sums : K × K),
      ws.foldl (fun sums w => (sums.1 + pull g v w * xs.getD w 0, sums.2 + pull g v w)) sums =
        (sums.1 + (ws.map fun w => pull g v w * xs.getD w 0).sum,
          sums.2 + (ws.map fun w => (pull g v w : K)).sum) := by
    intro ws
    induction ws with
    | nil => simp
    | cons w ws ih =>
      intro sums
      rw [List.foldl_cons, ih, List.map_cons, List.map_cons, List.sum_cons, List.sum_cons,
        add_assoc, add_assoc]
  simp only [pulls, Scalar.zero_eq]
  rw [hfold, zero_add, zero_add]

/-! ## Energy -/

/-- The energy of the segments: the square of the length of each along the layers, as often as it
pulls. -/
def energy (g : Layered) (xs : Array K) : K :=
  (g.arcs.map fun s => pull g s.1 s.2 * (xs.getD s.1 0 - xs.getD s.2 0) ^ 2).sum

/-- The energy of the segments of one node if it stood at `x`. -/
def strain (g : Layered) (xs : Array K) (v : Nat) (x : K) : K :=
  ((g.above v ++ g.below v).map fun w => pull g v w * (x - xs.getD w 0) ^ 2).sum

/-- The energy of the segments that do not reach a layer. -/
def energyBeside (g : Layered) (layer : List Nat) (xs : Array K) : K :=
  (((g.arcs.filter fun s => !decide (s.1 ∈ layer)).filter fun s => !decide (s.2 ∈ layer)).map
    fun s => pull g s.1 s.2 * (xs.getD s.1 0 - xs.getD s.2 0) ^ 2).sum

omit [LinearOrder K] [FloorRing K] [PlaneFunctions K] in
theorem sum_filter (p : Arc → Bool) (f : Arc → K) (arcs : List Arc) :
    (arcs.map f).sum = ((arcs.filter p).map f).sum + ((arcs.filter (!p ·)).map f).sum := by
  rw [← List.sum_append, ← List.map_append]
  exact ((List.filter_append_perm p arcs).map f).sum_eq.symm

omit [LinearOrder K] [FloorRing K] [PlaneFunctions K] in
/-- What reaches a layer reaches one of its nodes. -/
theorem sum_filter_mem (key : Arc → Nat) (f : Arc → K) (arcs : List Arc) {layer : List Nat}
    (hd : layer.Nodup) :
    ((arcs.filter (key · ∈ layer)).map f).sum =
      (layer.map fun v => ((arcs.filter (key · = v)).map f).sum).sum := by
  rw [← ((Layered.filter_mem_perm key arcs hd).map f).sum_eq, List.flatMap_def, List.map_flatten,
    List.sum_flatten, List.map_map, List.map_map]
  rfl

/-- The energy is that of the nodes of a layer, as no segment joins two of them, and what is
beside. -/
theorem energy_eq (hg : g.Joined) {layer : List Nat} (hd : layer.Nodup)
    (hb : ∀ v ∈ layer, v < g.size) (hjoin : ∀ s ∈ g.arcs, s.1 ∈ layer → s.2 ∉ layer)
    (xs : Array K) :
    energy g xs =
      energyBeside g layer xs + (layer.map fun v => strain g xs v (xs.getD v 0)).sum := by
  have hbelow : ∀ v ∈ layer, ((g.below v).map fun w =>
      pull g v w * (xs.getD v 0 - xs.getD w 0) ^ 2).sum =
        ((g.arcs.filter (·.1 = v)).map fun s =>
          pull g s.1 s.2 * (xs.getD s.1 0 - xs.getD s.2 0) ^ 2).sum := by
    intro v hv
    rw [hg.below v (hb v hv), List.map_map]
    refine congrArg List.sum (List.map_congr_left fun s hs => ?_)
    obtain rfl : s.1 = v := by simpa using (List.mem_filter.mp hs).2
    rfl
  have habove : ∀ v ∈ layer, ((g.above v).map fun w =>
      pull g v w * (xs.getD v 0 - xs.getD w 0) ^ 2).sum =
        ((g.arcs.filter (·.2 = v)).map fun s =>
          pull g s.1 s.2 * (xs.getD s.1 0 - xs.getD s.2 0) ^ 2).sum := by
    intro v hv
    rw [hg.above v (hb v hv), List.map_map]
    refine congrArg List.sum (List.map_congr_left fun s hs => ?_)
    obtain rfl : s.2 = v := by simpa using (List.mem_filter.mp hs).2
    simp only [Function.comp_apply]
    rw [pull_comm, ← neg_sub, neg_sq]
  have hlower : (g.arcs.filter fun s => !decide (s.1 ∈ layer)).filter (·.2 ∈ layer) =
      g.arcs.filter (·.2 ∈ layer) := by
    rw [List.filter_filter]
    refine List.filter_congr fun s hs => ?_
    by_cases hlow : s.2 ∈ layer
    · have hup : s.1 ∉ layer := fun hup => hjoin s hs hup hlow
      simp [hlow, hup]
    · simp [hlow]
  have hstrain : (layer.map fun v => strain g xs v (xs.getD v 0)).sum =
      ((g.arcs.filter (·.2 ∈ layer)).map fun s =>
          pull g s.1 s.2 * (xs.getD s.1 0 - xs.getD s.2 0) ^ 2).sum +
        ((g.arcs.filter (·.1 ∈ layer)).map fun s =>
          pull g s.1 s.2 * (xs.getD s.1 0 - xs.getD s.2 0) ^ 2).sum := by
    rw [sum_filter_mem Prod.fst _ _ hd, sum_filter_mem Prod.snd _ _ hd, ← List.sum_map_add]
    refine congrArg List.sum (List.map_congr_left fun v hv => ?_)
    rw [strain, List.map_append, List.sum_append, hbelow v hv, habove v hv]
  rw [hstrain, energy, energyBeside, sum_filter (·.1 ∈ layer),
    sum_filter (·.2 ∈ layer) _ (g.arcs.filter fun s => !decide (s.1 ∈ layer)), hlower]
  ring

/-- Where no segment joins two nodes of a layer, its nodes are pulled by nodes that stay. -/
theorem strain_placeLayer (hg : g.Joined) {layer : List Nat} (hb : ∀ v ∈ layer, v < g.size)
    (hjoin : ∀ s ∈ g.arcs, s.1 ∈ layer → s.2 ∉ layer) (xs : Array K) (gaps : List K) {v : Nat}
    (hv : v ∈ layer) (x : K) : strain g (placeLayer g xs layer gaps) v x = strain g xs v x := by
  refine congrArg List.sum (List.map_congr_left fun w hw => ?_)
  have hw : w ∉ layer := by
    intro hmem
    rcases List.mem_append.mp hw with hw | hw
    · exact hjoin _ ((hg.mem_above_iff (hb v hv)).mp hw) hmem hv
    · exact hjoin _ ((hg.mem_below_iff (hb v hv)).mp hw) hv hmem
  rw [getD_placeLayer_of_notMem hw]

theorem energyBeside_placeLayer (xs : Array K) (layer : List Nat) (gaps : List K) :
    energyBeside g layer (placeLayer g xs layer gaps) = energyBeside g layer xs := by
  refine congrArg List.sum (List.map_congr_left fun s hs => ?_)
  rw [List.filter_filter, List.mem_filter] at hs
  have hends : s.2 ∉ layer ∧ s.1 ∉ layer := by simpa using hs.2
  rw [getD_placeLayer_of_notMem hends.1, getD_placeLayer_of_notMem hends.2]

variable [IsStrictOrderedRing K]

theorem pull_pos (g : Layered) (v w : Nat) : (0 : K) < pull g v w := by
  have hnat : ∀ n : ℕ, 0 < n → (0 : K) < @OfNat.ofNat K n (Scalar.instOfNat n) :=
    fun n hn => Nat.cast_pos.mpr hn
  unfold pull
  cases g.isVirtual v <;> cases g.isVirtual w <;> exact hnat _ (by decide)

/-! ## One node -/

/-- The strain of a node is a square of its place, with the pulls as coefficients. -/
theorem strain_sub (g : Layered) (xs : Array K) (v : Nat) (x y : K) :
    strain g xs v x - strain g xs v y =
      (pulls g xs v).2 * (x ^ 2 - y ^ 2) - 2 * (pulls g xs v).1 * (x - y) := by
  rw [pulls_eq]
  simp only [strain]
  generalize g.above v ++ g.below v = ws
  induction ws with
  | nil => simp
  | cons w ws ih =>
    simp only [List.map_cons, List.sum_cons]
    linear_combination ih

/-- A node that is pulled nowhere has no strain. -/
theorem strain_eq_zero {xs : Array K} {v : Nat} (h : ¬ 0 < (pulls g xs v).2) (x : K) :
    strain g xs v x = 0 := by
  rw [pulls_eq] at h
  have hnone : g.above v ++ g.below v = [] := by
    by_contra hne
    refine h (List.sum_pos _ (fun p hp => ?_) (by simpa using hne))
    obtain ⟨w, -, rfl⟩ := List.mem_map.mp hp
    exact pull_pos g v w
  rw [strain, hnone]
  rfl

omit [IsStrictOrderedRing K] in
theorem wish_eq (g : Layered) (xs : Array K) (v : Nat) :
    wish g xs v = if 0 < (pulls g xs v).2 then
      ((pulls g xs v).1 / (pulls g xs v).2, (pulls g xs v).2) else (xs.getD v 0, 1 / 100) := by
  have hlight : @OfNat.ofNat K 1 (Scalar.instOfNat 1) / @OfNat.ofNat K 100 (Scalar.instOfNat 100) =
      1 / 100 := by
    change ((1 : ℕ) : K) / ((100 : ℕ) : K) = 1 / 100
    rw [Nat.cast_one, Nat.cast_ofNat]
  simp only [wish, Scalar.zero_eq, hlight]

theorem wish_pos (g : Layered) (xs : Array K) (v : Nat) : 0 < (wish g xs v).2 := by
  rw [wish_eq]
  split
  · assumption
  · norm_num

/-- As seen from one node, energy falls by as much as the node comes closer to its wish. -/
theorem strain_sub_le (g : Layered) (xs : Array K) (v : Nat) (x : K) :
    strain g xs v x - strain g xs v (xs.getD v 0) ≤
      (wish g xs v).2 * (x - (wish g xs v).1) ^ 2 -
        (wish g xs v).2 * (xs.getD v 0 - (wish g xs v).1) ^ 2 := by
  rw [wish_eq]
  split
  · rename_i hpulled
    -- Both sides are the same square, completed.
    have hmean : (pulls g xs v).1 / (pulls g xs v).2 * (pulls g xs v).2 = (pulls g xs v).1 :=
      div_mul_cancel₀ _ hpulled.ne'
    rw [strain_sub]
    refine le_of_eq ?_
    linear_combination (2 * (x - xs.getD v 0)) * hmean
  · rename_i hfree
    rw [strain_eq_zero hfree, strain_eq_zero hfree]
    have hnonneg : 0 ≤ (1 / 100 : K) * (x - xs.getD v 0) ^ 2 :=
      mul_nonneg (by norm_num) (sq_nonneg _)
    simpa using hnonneg

/-! ## One layer -/

omit [LinearOrder K] [FloorRing K] [PlaneFunctions K] [IsStrictOrderedRing K] in
/-- Taking the same away from targets and from a sequence leaves it as far from them. -/
theorem squares_sub {targets : List (K × K)} {offsets : List K}
    (h : targets.length ≤ offsets.length) (xs : List K) :
    squares (targets.zipWith (fun t o => (t.1 - o, t.2)) offsets) (xs.zipWith (· - ·) offsets) =
      squares targets xs := by
  induction targets generalizing offsets xs with
  | nil => rfl
  | cons t targets ih =>
    have hpos : 0 < offsets.length := Nat.lt_of_lt_of_le (Nat.succ_pos _) h
    obtain ⟨o, offsets, rfl⟩ := List.exists_cons_of_length_pos hpos
    cases xs with
    | nil => rfl
    | cons x xs =>
      have hrest := ih (Nat.le_of_succ_le_succ h) xs
      simp only [squares, List.zipWith_cons_cons, List.sum_cons] at hrest ⊢
      rw [hrest, sub_sub_sub_cancel_right]

/-- No sequence that does not descend is closer to its targets than the fit. -/
theorem squares_isotonicFit_le {targets weights ys : List K}
    (hlength : targets.length = weights.length) (hweights : ∀ w ∈ weights, 0 < w)
    (hys : ys.length = targets.length) (hasc : ys.Pairwise (· ≤ ·)) :
    squares (targets.zip weights) (isotonicFit targets weights) ≤
      squares (targets.zip weights) ys := by
  have hpos : ∀ t ∈ targets.zip weights, 0 < t.2 := fun t ht =>
    hweights t.2 (List.of_mem_zip ht).2
  have hzip : ys.length = (targets.zip weights).length := by
    rw [List.length_zip, ← hlength, Nat.min_self, hys]
  have hpooled := (pooled_pools hpos).squares_le hzip hasc
  rw [List.map_snd_zip hlength.ge] at hpooled
  have hfit : ∀ t ∈ (isotonicFit targets weights).zip weights, 0 < t.2 :=
    fun t ht => hweights t.2 (List.of_mem_zip ht).2
  have hnonneg := squares_nonneg hfit ys
  exact (le_add_of_nonneg_right hnonneg).trans hpooled

variable {widths : Array K} {spacing : Spacing K}

omit [IsStrictOrderedRing K] in
theorem targets_eq (xs : Array K) (layer : List Nat) :
    (layer.map (wish g xs)).zipWith (fun t o => (t.1 - o, t.2))
        (offsets 0 (gaps g widths spacing layer)) =
      ((layer.map (wish g xs)).zipWith (fun t o => t.1 - o)
        (offsets 0 (gaps g widths spacing layer))).zip ((layer.map (wish g xs)).map (·.2)) := by
  have hoffsets : layer.length ≤ (offsets 0 (gaps g widths spacing layer)).length :=
    length_le_offsets 0 layer
  refine List.ext_getElem ?_ fun i hi _ => ?_
  · simp only [List.length_zip, List.length_zipWith, List.length_map]
    omega
  · simp only [List.getElem_zipWith, List.getElem_zip, List.getElem_map]

/-- A layer that is placed is closer to its wishes than it was. -/
theorem squares_wished_le {xs : Array K} {layer : List Nat}
    (h : KeepsGaps g widths spacing xs layer) :
    squares (layer.map (wish g xs)) (wished g xs layer (gaps g widths spacing layer)) ≤
      squares (layer.map (wish g xs)) (layer.map (xs.getD · 0)) := by
  have hoffsets : layer.length ≤ (offsets 0 (gaps g widths spacing layer)).length :=
    length_le_offsets 0 layer
  have hwishes : (layer.map (wish g xs)).length ≤
      (offsets 0 (gaps g widths spacing layer)).length := by rwa [List.length_map]
  rw [← squares_sub hwishes, ← squares_sub hwishes (layer.map (xs.getD · 0)), wished_freed,
    targets_eq]
  -- The places that the layer had are one of the sequences that the fit competes with.
  refine squares_isotonicFit_le ?_ ?_ ?_ ((keepsGaps_iff 0).mp h)
  · simpa using hoffsets
  · intro w hw
    obtain ⟨t, ht, rfl⟩ := List.mem_map.mp hw
    obtain ⟨v, -, rfl⟩ := List.mem_map.mp ht
    exact wish_pos g xs v
  · simp only [List.length_zipWith, List.length_map]

omit [LinearOrder K] [FloorRing K] [PlaneFunctions K] [IsStrictOrderedRing K] in
theorem squares_map (t : Nat → K × K) (f : Nat → K) (layer : List Nat) :
    squares (layer.map t) (layer.map f) =
      (layer.map fun v => (t v).2 * (f v - (t v).1) ^ 2).sum := by
  rw [squares, List.zipWith_map, List.zipWith_self]

/-- **Placing a layer costs no energy** if it keeps its gaps. -/
theorem energy_placeLayer_le (hg : g.Joined) {layer : List Nat} (hd : layer.Nodup)
    (hb : ∀ v ∈ layer, v < g.size) (hjoin : ∀ s ∈ g.arcs, s.1 ∈ layer → s.2 ∉ layer)
    {xs : Array K} (hxs : xs.size = g.size) (h : KeepsGaps g widths spacing xs layer) :
    energy g (placeLayer g xs layer (gaps g widths spacing layer)) ≤ energy g xs := by
  have hplaced : layer.map ((placeLayer g xs layer (gaps g widths spacing layer)).getD · 0) =
      wished g xs layer (gaps g widths spacing layer) := by
    rw [placeLayer_eq, map_getD_assign (length_wished xs layer).ge hd fun v hv => hxs ▸ hb v hv,
      List.take_of_length_le (length_wished xs layer).le]
  have hcloser := squares_wished_le h
  rw [← hplaced, squares_map, squares_map] at hcloser
  have hstrains : (layer.map fun v => strain g xs v
        ((placeLayer g xs layer (gaps g widths spacing layer)).getD v 0)).sum +
      (layer.map fun v => (wish g xs v).2 * (xs.getD v 0 - (wish g xs v).1) ^ 2).sum ≤
        (layer.map fun v => strain g xs v (xs.getD v 0)).sum +
          (layer.map fun v => (wish g xs v).2 *
            ((placeLayer g xs layer (gaps g widths spacing layer)).getD v 0 -
              (wish g xs v).1) ^ 2).sum := by
    rw [← List.sum_map_add, ← List.sum_map_add]
    refine List.sum_le_sum fun v _ => ?_
    have hnode := strain_sub_le g xs v
      ((placeLayer g xs layer (gaps g widths spacing layer)).getD v 0)
    linarith
  rw [energy_eq hg hd hb hjoin, energy_eq hg hd hb hjoin, energyBeside_placeLayer,
    List.map_congr_left fun v hv => strain_placeLayer hg hb hjoin xs _ hv _]
  linarith

/-! ## All passes -/

/-- The coordinates on the way from the packing to the last pass, after each layer placed. -/
def course (g : Layered) (layers : Layers) (widths : Array K) (spacing : Spacing K) :
    List (Array K) :=
  (schedule layers).scanl (fun xs layer => placeLayer g xs layer (gaps g widths spacing layer))
    (packed g.size (layers.map fun layer => (layer, gaps g widths spacing layer)))

/-- What each step keeps holds on the whole way, and each step leads on as it is said to. -/
theorem scanl_induction {α β : Type} {P : β → Prop} {R : β → β → Prop} {f : β → α → β}
    {steps : List α} (hstep : ∀ x, P x → ∀ a ∈ steps, P (f x a) ∧ R x (f x a)) {start : β}
    (hstart : P start) :
    (∀ x ∈ steps.scanl f start, P x) ∧ (steps.scanl f start).IsChain R := by
  induction steps generalizing start with
  | nil => simpa using hstart
  | cons a steps ih =>
    obtain ⟨hnext, hleads⟩ := hstep start hstart a List.mem_cons_self
    obtain ⟨hall, hchain⟩ := ih (fun x hx b hb => hstep x hx b (List.mem_cons_of_mem _ hb)) hnext
    rw [List.scanl_cons]
    refine ⟨List.forall_mem_cons.mpr ⟨hstart, hall⟩, ?_⟩
    refine List.isChain_cons.mpr ⟨fun y hy => ?_, hchain⟩
    rw [List.head?_scanl] at hy
    cases hy
    exact hleads

theorem notMem_of_joined (hg : g.Joined) {layers : Layers} (h : g.Complete layers)
    {layer : List Nat} (hl : layer ∈ layers) {s : Arc} (hs : s ∈ g.arcs) (hupper : s.1 ∈ layer) :
    s.2 ∉ layer := by
  intro hlower
  obtain ⟨r, hr, rfl⟩ := List.mem_iff_getElem.mp hl
  have hu := ((h.mem_getElem hr).mp hupper).2
  have hv := ((h.mem_getElem hr).mp hlower).2
  have hrank := hg.rank s hs
  omega

section Course

variable {layers : Layers} (hg : g.Joined) (h : g.Complete layers)

include hg h

theorem energy_laid_le {xs : Array K} (hxs : Laid g layers widths spacing xs) {layer : List Nat}
    (hl : layer ∈ layers) :
    energy g (placeLayer g xs layer (gaps g widths spacing layer)) ≤ energy g xs :=
  energy_placeLayer_le hg (h.nodup hl) (fun _ hv => h.lt_size hl hv)
    (fun _ hs => notMem_of_joined hg h hl hs) hxs.size (hxs.keeps layer hl)

/-- All layers keep their gaps on the whole way, and each step leads to no more energy. -/
theorem laid_course (widths : Array K) (spacing : Spacing K) :
    (∀ xs ∈ course g layers widths spacing, Laid g layers widths spacing xs) ∧
      (course g layers widths spacing).IsChain fun xs ys => energy g ys ≤ energy g xs := by
  refine scanl_induction (fun xs hxs layer hl => ?_) (laid_packed h)
  have hlayer := mem_of_mem_schedule hl
  exact ⟨hxs.placeLayer h hlayer, energy_laid_le hg h hxs hlayer⟩

/-- The energy after any number of steps is at most that before them. -/
theorem energies_fall (widths : Array K) (spacing : Spacing K) :
    (course g layers widths spacing).Pairwise fun xs ys => energy g ys ≤ energy g xs :=
  @List.IsChain.pairwise _ _ _ ⟨fun hxy hyz => le_trans hyz hxy⟩ (laid_course hg h widths spacing).2

end Course

/-- Placing the layers eases the segments: from the packing to the last pass the gaps of all layers
are kept, and no layer that is placed costs energy or moves another one. -/
structure Eases (g : Layered) (layers : Layers) (widths : Array K) (spacing : Spacing K) :
    Prop where
  first : (course g layers widths spacing).head? =
    some (packed g.size (layers.map fun layer => (layer, gaps g widths spacing layer)))
  last : (course g layers widths spacing).getLast? = some (alongLayers g layers widths spacing)
  keeps : ∀ xs ∈ course g layers widths spacing, ∀ layer ∈ layers,
    KeepsGaps g widths spacing xs layer
  others : ∀ xs ∈ course g layers widths spacing, ∀ layer ∈ layers, ∀ v ∉ layer,
    (placeLayer g xs layer (gaps g widths spacing layer)).getD v 0 = xs.getD v 0
  eases : ∀ xs ∈ course g layers widths spacing, ∀ layer ∈ layers,
    energy g (placeLayer g xs layer (gaps g widths spacing layer)) ≤ energy g xs
  falls : (course g layers widths spacing).Pairwise fun xs ys => energy g ys ≤ energy g xs
  gains : energy g (alongLayers g layers widths spacing) ≤
    energy g (packed g.size (layers.map fun layer => (layer, gaps g widths spacing layer)))

/-- **Sweeps only ease the segments.** In whatever order the nodes of each layer stand, and whatever
their widths and gaps are, neighbours keep their gaps from the packing to the last pass, and every
layer that is placed moves no other layer and leaves the segments with no more energy. -/
theorem alongLayers_eases {ranks : Array Nat} {edges : List (Option Arc)}
    (h : LeadDown ranks edges) {layers : Layers}
    (hp : Permuted layers (Layered.ofEdges ranks edges).arrange) (widths : Array K)
    (spacing : Spacing K) : Eases (Layered.ofEdges ranks edges) layers widths spacing := by
  have hg := Layered.joined_ofEdges h
  have hcomplete := (Layered.complete_arrange (Layered.ofEdges ranks edges)).permuted hp
  generalize Layered.ofEdges ranks edges = g at hg hcomplete ⊢
  have hlaid := (laid_course hg hcomplete widths spacing).1
  have hfalls := energies_fall hg hcomplete widths spacing
  have hlast : (course g layers widths spacing).getLast? =
      some (alongLayers g layers widths spacing) := by
    rw [course, List.getLast?_scanl, alongLayers_eq]
  exact {
    first := List.head?_scanl
    last := hlast
    keeps := fun xs hxs => (hlaid xs hxs).keeps
    others := fun xs _ layer _ v hv => getD_placeLayer_of_notMem hv xs _
    eases := fun xs hxs layer hl => energy_laid_le hg hcomplete (hlaid xs hxs) hl
    falls := hfalls
    gains := by
      have hfirst : (course g layers widths spacing).head? = some _ := List.head?_scanl
      obtain ⟨rest, hrest⟩ := List.head?_eq_some_iff.mp hfirst
      have hmem := List.mem_of_getLast? hlast
      rw [hrest] at hmem hfalls
      rcases List.mem_cons.mp hmem with hsame | hmem
      · exact le_of_eq (congrArg (energy g) hsame)
      · exact (List.pairwise_cons.mp hfalls).1 _ hmem }

/-- Two edges, laid out with the upper nodes exchanged. -/
theorem alongLayers_eases_exchanged :
    LeadDown #[0, 0, 1, 1] [some (0, 3), some (1, 2)] ∧
      Permuted [[1, 0], [3, 2]]
        (Layered.ofEdges #[0, 0, 1, 1] [some (0, 3), some (1, 2)]).arrange ∧
      Eases (Layered.ofEdges #[0, 0, 1, 1] [some (0, 3), some (1, 2)]) [[1, 0], [3, 2]]
        (#[40, 30, 20, 0] : Array ℚ) ⟨50, 20⟩ := by
  have hdown : LeadDown #[0, 0, 1, 1] [some (0, 3), some (1, 2)] := by
    intro a ha
    simp only [List.mem_cons, Option.some.injEq, List.not_mem_nil, or_false] at ha
    rcases ha with rfl | rfl <;> decide
  have hfirst : (Layered.ofEdges #[0, 0, 1, 1] [some (0, 3), some (1, 2)]).arrange =
      [[0, 1], [3, 2]] := by
    rw [Layered.arrange, Layered.trail, Layered.byRank_eq_range (by decide)]
    rfl
  have hp : Permuted [[1, 0], [3, 2]]
      (Layered.ofEdges #[0, 0, 1, 1] [some (0, 3), some (1, 2)]).arrange :=
    hfirst ▸ .cons (by decide) (.cons (by decide) .nil)
  exact ⟨hdown, hp, alongLayers_eases hdown hp _ _⟩

end Tiered.Layout
