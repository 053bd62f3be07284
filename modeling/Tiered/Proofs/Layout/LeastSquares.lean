import Mathlib.Algebra.Order.BigOperators.Group.List
import Mathlib.Tactic.LinearCombination
import Tiered.Proofs.Layout.Isotonic

/-!
# The isotonic fit is the closest

* `squares`: how far a sequence is from weighted targets;
* `Pool.Holds`: a pool stands for consecutive targets if its value is their mean and no front of
  them has a smaller mean; merging two pools that descend keeps this (`Pool.Holds.merge`);
* `pooled_pools`: so the pools of all targets hold them, one part after the other;
* `moment_le_zero`: where no front has a smaller mean, a sequence that does not descend cannot gain
  by leaving the mean;
* `isotonicFit_closest`: hence the fit is the one sequence without a descent that is closest.
-/

namespace Tiered.Layout

variable {K : Type}

/-- The sequence that pools stand for, the last of which comes first. -/
def spreadOut (blocks : List (Pool K)) : List K :=
  blocks.reverse.flatMap fun b => List.replicate b.count b.value

theorem spreadOut_cons (b : Pool K) (blocks : List (Pool K)) :
    spreadOut (b :: blocks) = spreadOut blocks ++ List.replicate b.count b.value := by
  simp [spreadOut]

variable [Field K]

/-! ## Sums over targets that come with their weights -/

/-- The weighted sum of the squared differences between a sequence and its targets. -/
def squares (targets : List (K × K)) (xs : List K) : K :=
  (List.zipWith (fun t x => t.2 * (x - t.1) ^ 2) targets xs).sum

/-- By how much targets are above a value, all together. -/
def excess (c : K) (targets : List (K × K)) : K := (targets.map fun t => t.2 * (t.1 - c)).sum

/-- The weight of all targets. -/
def mass (targets : List (K × K)) : K := (targets.map Prod.snd).sum

/-- The excess of the targets, each times the entry of a sequence. -/
def moment (c : K) (targets : List (K × K)) (ys : List K) : K :=
  (List.zipWith (fun t y => t.2 * (t.1 - c) * y) targets ys).sum

theorem squares_append {ts us : List (K × K)} {xs ys : List K} (h : ts.length = xs.length) :
    squares (ts ++ us) (xs ++ ys) = squares ts xs + squares us ys := by
  rw [squares, List.zipWith_append h, List.sum_append]
  rfl

/-- Targets are at no distance from themselves. -/
theorem squares_self (ts : List (K × K)) : squares ts (ts.map Prod.fst) = 0 := by
  induction ts with
  | nil => rfl
  | cons t ts ih =>
    have hsum : squares (t :: ts) ((t :: ts).map Prod.fst) =
        t.2 * (t.1 - t.1) ^ 2 + squares ts (ts.map Prod.fst) := rfl
    rw [hsum, ih, sub_self]
    ring

theorem excess_cons (c : K) (t : K × K) (ts : List (K × K)) :
    excess c (t :: ts) = t.2 * (t.1 - c) + excess c ts := by
  rw [excess, List.map_cons, List.sum_cons]
  rfl

theorem excess_append (c : K) (ts us : List (K × K)) :
    excess c (ts ++ us) = excess c ts + excess c us := by
  rw [excess, List.map_append, List.sum_append]
  rfl

theorem mass_cons (t : K × K) (ts : List (K × K)) : mass (t :: ts) = t.2 + mass ts := by
  rw [mass, List.map_cons, List.sum_cons]
  rfl

theorem mass_append (ts us : List (K × K)) : mass (ts ++ us) = mass ts + mass us := by
  rw [mass, List.map_append, List.sum_append]
  rfl

theorem excess_eq_add (c d : K) (ts : List (K × K)) :
    excess c ts = excess d ts + mass ts * (d - c) := by
  induction ts with
  | nil => simp [excess, mass]
  | cons t ts ih =>
    rw [excess_cons, excess_cons, mass_cons, ih]
    ring

/-- How far a sequence is from targets, seen from a single value. -/
theorem squares_eq_around (c : K) {ts : List (K × K)} {ys : List K}
    (h : ys.length = ts.length) :
    squares ts ys + 2 * moment c ts ys = squares ts (List.replicate ts.length c) +
      squares ((List.replicate ts.length c).zip (ts.map Prod.snd)) ys + 2 * c * excess c ts := by
  induction ts generalizing ys with
  | nil =>
    obtain rfl := List.eq_nil_of_length_eq_zero h
    simp [squares, moment, excess]
  | cons t ts ih =>
    obtain ⟨y, ys, rfl⟩ := List.exists_cons_of_length_eq_add_one h
    have hrest := ih (Nat.succ.inj h)
    rw [excess_cons]
    simp only [squares, moment, List.length_cons, List.replicate_succ, List.map_cons,
      List.zip_cons_cons, List.zipWith_cons_cons, List.sum_cons] at hrest ⊢
    linear_combination hrest

variable [LinearOrder K] [IsStrictOrderedRing K]

theorem mass_nonneg {ts : List (K × K)} (h : ∀ t ∈ ts, 0 < t.2) : 0 ≤ mass ts :=
  List.sum_nonneg fun w hw => by
    obtain ⟨t, ht, rfl⟩ := List.mem_map.mp hw
    exact (h t ht).le

theorem squares_nonneg {ts : List (K × K)} (h : ∀ t ∈ ts, 0 < t.2) (xs : List K) :
    0 ≤ squares ts xs := by
  induction ts generalizing xs with
  | nil => exact le_refl _
  | cons t ts ih =>
    cases xs with
    | nil => exact le_refl _
    | cons x xs =>
      obtain ⟨ht, hts⟩ := List.forall_mem_cons.mp h
      have hfirst : 0 ≤ t.2 * (x - t.1) ^ 2 := mul_nonneg ht.le (sq_nonneg _)
      exact add_nonneg hfirst (ih hts xs)

/-- Only the targets themselves are at no distance from them. -/
theorem eq_of_squares_nonpos {ts : List (K × K)} (h : ∀ t ∈ ts, 0 < t.2) {xs : List K}
    (hlength : xs.length = ts.length) (hxs : squares ts xs ≤ 0) : xs = ts.map Prod.fst := by
  induction ts generalizing xs with
  | nil => exact List.eq_nil_of_length_eq_zero hlength
  | cons t ts ih =>
    obtain ⟨x, xs, rfl⟩ := List.exists_cons_of_length_eq_add_one hlength
    obtain ⟨ht, hts⟩ := List.forall_mem_cons.mp h
    have hsum : squares (t :: ts) (x :: xs) = t.2 * (x - t.1) ^ 2 + squares ts xs := rfl
    have hfirst : 0 ≤ t.2 * (x - t.1) ^ 2 := mul_nonneg ht.le (sq_nonneg _)
    have hrest := squares_nonneg hts xs
    have hzero : t.2 * (x - t.1) ^ 2 = 0 := by linarith
    have hx : x = t.1 := by
      rcases mul_eq_zero.mp hzero with h0 | h0
      · exact absurd h0 ht.ne'
      · exact sub_eq_zero.mp (pow_eq_zero_iff two_ne_zero |>.mp h0)
    rw [List.map_cons, hx, ih hts (Nat.succ.inj hlength) (by linarith)]

/-- As no front has an excess below zero, what a sequence that does not descend moves away from
the value is paid for. The excess of the targets passed is carried along. -/
theorem moment_le_zero {c carried y : K} {ts : List (K × K)} {ys : List K}
    (hfronts : ∀ front, front <+: ts → 0 ≤ carried + excess c front)
    (hall : carried + excess c ts = 0) (hys : (y :: ys).Pairwise (· ≤ ·))
    (hlength : ys.length = ts.length) : carried * y + moment c ts ys ≤ 0 := by
  induction ts generalizing carried y ys with
  | nil =>
    obtain rfl := List.eq_nil_of_length_eq_zero hlength
    have hzero : carried = 0 := by simpa [excess] using hall
    simp [hzero, moment]
  | cons t ts ih =>
    obtain ⟨z, zs, rfl⟩ := List.exists_cons_of_length_eq_add_one hlength
    obtain ⟨hy, hzs⟩ := List.pairwise_cons.mp hys
    have hcarried : 0 ≤ carried := by simpa [excess] using hfronts [] List.nil_prefix
    have hstep : carried * y ≤ carried * z :=
      mul_le_mul_of_nonneg_left (hy z List.mem_cons_self) hcarried
    have hrest : (carried + t.2 * (t.1 - c)) * z + moment c ts zs ≤ 0 := by
      refine ih (fun front hfront => ?_) ?_ hzs (Nat.succ.inj hlength)
      · have hlong := hfronts (t :: front) (List.cons_prefix_cons.mpr ⟨rfl, hfront⟩)
        rwa [excess_cons, ← add_assoc] at hlong
      · rwa [excess_cons, ← add_assoc] at hall
    have hsum : moment c (t :: ts) (z :: zs) = t.2 * (t.1 - c) * z + moment c ts zs := rfl
    rw [hsum]
    linarith

/-! ## Pools -/

variable [FloorRing K] [PlaneFunctions K]

/-- A pool stands for consecutive targets: its value is their weighted mean, and no front of them
has a smaller one. -/
structure Pool.Holds (p : Pool K) (targets : List (K × K)) : Prop where
  count : p.count = targets.length
  weight : p.weight = mass targets
  heavy : 0 < p.weight
  weights : ∀ t ∈ targets, 0 < t.2
  mean : excess p.value targets = 0
  fronts : ∀ front, front <+: targets → 0 ≤ excess p.value front

omit [IsStrictOrderedRing K] [FloorRing K] [PlaneFunctions K] in
theorem Pool.holds_single {t : K × K} (ht : 0 < t.2) : (⟨t.1, t.2, 1⟩ : Pool K).Holds [t] := by
  have hmean : excess t.1 [t] = 0 := by simp [excess]
  refine ⟨rfl, by simp [mass], ht, by simpa using ht, hmean, fun front hfront => ?_⟩
  rcases List.prefix_cons_iff.mp hfront with rfl | ⟨rest, rfl, hrest⟩
  · exact le_refl _
  · rw [List.prefix_nil.mp hrest, hmean]

/-- The value of two pools that descend is between theirs. -/
theorem Pool.value_merge {a b : Pool K} (ha : 0 < a.weight) (hb : 0 < b.weight)
    (h : b.value ≤ a.value) :
    (a.merge b).value * (a.weight + b.weight) = a.value * a.weight + b.value * b.weight ∧
      b.value ≤ (a.merge b).value ∧ (a.merge b).value ≤ a.value := by
  have hpos : 0 < a.weight + b.weight := add_pos ha hb
  have hvalue : (a.merge b).value * (a.weight + b.weight) =
      a.value * a.weight + b.value * b.weight := div_mul_cancel₀ _ hpos.ne'
  refine ⟨hvalue, ?_, ?_⟩
  · refine le_of_mul_le_mul_right ?_ hpos
    rw [hvalue, mul_add]
    exact add_le_add_left (mul_le_mul_of_nonneg_right h ha.le) _
  · refine le_of_mul_le_mul_right ?_ hpos
    rw [hvalue, mul_add]
    exact add_le_add_right (mul_le_mul_of_nonneg_right h hb.le) _

theorem Pool.Holds.merge {a b : Pool K} {ts us : List (K × K)} (ha : a.Holds ts)
    (hb : b.Holds us) (h : b.value ≤ a.value) : (a.merge b).Holds (ts ++ us) := by
  obtain ⟨hvalue, hlow, hhigh⟩ := Pool.value_merge ha.heavy hb.heavy h
  have hleft : excess (a.merge b).value ts = a.weight * (a.value - (a.merge b).value) := by
    rw [excess_eq_add _ a.value, ha.mean, zero_add, ha.weight]
  have hright : excess (a.merge b).value us = b.weight * (b.value - (a.merge b).value) := by
    rw [excess_eq_add _ b.value, hb.mean, zero_add, hb.weight]
  have hmean : excess (a.merge b).value (ts ++ us) = 0 := by
    rw [excess_append, hleft, hright]
    linear_combination -hvalue
  constructor
  · rw [List.length_append, ← ha.count, ← hb.count]
    rfl
  · rw [mass_append, ← ha.weight, ← hb.weight]
    rfl
  · exact add_pos ha.heavy hb.heavy
  · intro t ht
    exact (List.mem_append.mp ht).elim (ha.weights t) (hb.weights t)
  · exact hmean
  · rintro front ⟨back, hsplit⟩
    rcases List.append_eq_append_iff.mp hsplit with ⟨rest, rfl, -⟩ | ⟨rest, rfl, rfl⟩
    · -- A front of the first targets, above whose mean the value does not lie.
      have hfront := ha.fronts front (List.prefix_append _ _)
      have hmass : 0 ≤ mass front := mass_nonneg fun t ht =>
        ha.weights t (List.mem_append_left _ ht)
      rw [excess_eq_add _ a.value]
      exact add_nonneg hfront (mul_nonneg hmass (sub_nonneg.mpr hhigh))
    · -- What is missing of the second targets is below the value.
      have hfront := hb.fronts rest (List.prefix_append _ _)
      have hmean' : excess b.value (rest ++ back) = 0 := hb.mean
      have hback : 0 ≤ mass back := mass_nonneg fun t ht =>
        hb.weights t (List.mem_append_right _ ht)
      rw [excess_append] at hmean'
      have hmissing : excess (a.merge b).value back ≤ 0 := by
        rw [excess_eq_add _ b.value]
        have hnonpos := mul_nonneg hback (sub_nonneg.mpr hlow)
        linarith
      rw [← List.append_assoc, excess_append] at hmean
      linarith

/-- Pools, the last of which comes first, hold targets part by part. -/
inductive Pooled : List (Pool K) → List (K × K) → Prop
  | nil : Pooled [] []
  | cons {b : Pool K} {part : List (K × K)} {blocks : List (Pool K)} {targets : List (K × K)}
      (hb : b.Holds part) (h : Pooled blocks targets) : Pooled (b :: blocks) (targets ++ part)

theorem pooled_absorb {b : Pool K} {part : List (K × K)} (hb : b.Holds part)
    {blocks : List (Pool K)} {targets : List (K × K)} (h : Pooled blocks targets) :
    Pooled (absorb b blocks) (targets ++ part) := by
  induction h generalizing b part with
  | nil => exact .cons hb .nil
  | @cons a front rest targets ha h ih =>
    unfold absorb
    split
    · exact .cons hb (.cons ha h)
    · rename_i hdescend
      rw [List.append_assoc]
      exact ih (ha.merge hb (le_of_not_ge hdescend))

theorem pooled_pools {targets : List (K × K)} (h : ∀ t ∈ targets, 0 < t.2) :
    Pooled (pools targets) targets := by
  have hfold : ∀ (rest : List (K × K)) (blocks : List (Pool K)) (done : List (K × K)),
      (∀ t ∈ rest, 0 < t.2) → Pooled blocks done →
      Pooled (rest.foldl (fun blocks t => absorb ⟨t.1, t.2, 1⟩ blocks) blocks) (done ++ rest) := by
    intro rest
    induction rest with
    | nil => exact fun blocks done _ hdone => by rwa [List.append_nil]
    | cons t rest ih =>
      intro blocks done hrest hdone
      obtain ⟨ht, hrest⟩ := List.forall_mem_cons.mp hrest
      have hnext := ih _ _ hrest (pooled_absorb (Pool.holds_single ht) hdone)
      rwa [List.append_assoc] at hnext
  exact hfold targets [] [] h .nil

/-! ## The closest sequence -/

/-- A sequence that does not descend is as far from the targets of a pool as its value is, and in
addition as far as it is from that value. -/
theorem Pool.Holds.squares_le {p : Pool K} {ts : List (K × K)} (h : p.Holds ts) {ys : List K}
    (hlength : ys.length = ts.length) (hys : ys.Pairwise (· ≤ ·)) :
    squares ts (List.replicate p.count p.value) +
      squares ((List.replicate p.count p.value).zip (ts.map Prod.snd)) ys ≤ squares ts ys := by
  have haround := squares_eq_around p.value hlength
  have hmoment : moment p.value ts ys ≤ 0 := by
    cases ys with
    | nil => simp [moment]
    | cons y ys =>
      have hfirst : (y :: y :: ys).Pairwise (· ≤ ·) := by
        refine List.pairwise_cons.mpr ⟨fun z hz => ?_, hys⟩
        rcases List.mem_cons.mp hz with rfl | hz
        · exact le_refl _
        · exact (List.pairwise_cons.mp hys).1 z hz
      have hfronts : ∀ front, front <+: ts → 0 ≤ (0 : K) + excess p.value front := by
        simpa using h.fronts
      have hpaid := moment_le_zero hfronts (by simpa using h.mean) hfirst hlength
      simpa using hpaid
  rw [h.mean, ← h.count] at haround
  linarith

omit [IsStrictOrderedRing K] [FloorRing K] [PlaneFunctions K] in
theorem Pooled.length_spreadOut {blocks : List (Pool K)} {targets : List (K × K)}
    (h : Pooled blocks targets) : (spreadOut blocks).length = targets.length := by
  induction h with
  | nil => rfl
  | cons hb _ ih => rw [spreadOut_cons, List.length_append, List.length_append, ih,
      List.length_replicate, hb.count]

theorem Pooled.squares_le {blocks : List (Pool K)} {targets : List (K × K)}
    (h : Pooled blocks targets) {ys : List K} (hlength : ys.length = targets.length)
    (hys : ys.Pairwise (· ≤ ·)) :
    squares targets (spreadOut blocks) +
      squares ((spreadOut blocks).zip (targets.map Prod.snd)) ys ≤ squares targets ys := by
  induction h generalizing ys with
  | nil =>
    obtain rfl := List.eq_nil_of_length_eq_zero hlength
    simp [squares, spreadOut]
  | @cons b part blocks targets hb h ih =>
    rw [List.length_append] at hlength
    obtain ⟨front, back, rfl, hfront⟩ : ∃ front back, ys = front ++ back ∧
        front.length = targets.length :=
      ⟨ys.take targets.length, ys.drop targets.length, (List.take_append_drop _ _).symm,
        List.length_take_of_le (by omega)⟩
    obtain ⟨hfrontAsc, hbackAsc, -⟩ := List.pairwise_append.mp hys
    have hback : back.length = part.length := by
      rw [List.length_append] at hlength
      omega
    have hlengths := h.length_spreadOut
    have hleft := ih hfront hfrontAsc
    have hright := hb.squares_le hback hbackAsc
    rw [spreadOut_cons, List.map_append, List.zip_append (by rw [hlengths, List.length_map]),
      squares_append hlengths.symm, squares_append hfront.symm,
      squares_append (by rw [List.length_zip, List.length_map, hlengths, Nat.min_self, hfront])]
    linarith

/-- A sequence is the closest one to weighted targets among all that do not descend. -/
structure Closest (targets weights fit : List K) : Prop where
  length : fit.length = targets.length
  ascending : fit.Pairwise (· ≤ ·)
  least : ∀ ys : List K, ys.length = targets.length → ys.Pairwise (· ≤ ·) →
    squares (targets.zip weights) fit ≤ squares (targets.zip weights) ys
  /-- No other sequence is as close. -/
  only : ∀ ys : List K, ys.length = targets.length → ys.Pairwise (· ≤ ·) →
    squares (targets.zip weights) ys ≤ squares (targets.zip weights) fit → ys = fit
  /-- Targets that do not descend are left as they are. -/
  kept : targets.Pairwise (· ≤ ·) → fit = targets

/-- **The isotonic fit is the closest.** Whatever the targets and their weights above zero are,
pooling neighbours that descend finds the sequence without a descent that is closest to them in
weighted least squares. -/
theorem isotonicFit_closest {targets weights : List K} (hlength : targets.length = weights.length)
    (hweights : ∀ w ∈ weights, 0 < w) :
    Closest targets weights (isotonicFit targets weights) := by
  have hpos : ∀ t ∈ targets.zip weights, 0 < t.2 := fun t ht =>
    hweights t.2 (List.of_mem_zip ht).2
  have hzip : (targets.zip weights).length = targets.length := by
    rw [List.length_zip, ← hlength, Nat.min_self]
  have hfst : (targets.zip weights).map Prod.fst = targets := List.map_fst_zip hlength.le
  have hsnd : (targets.zip weights).map Prod.snd = weights := List.map_snd_zip hlength.ge
  have hfit := length_isotonicFit hlength
  have hall : ∀ ys : List K, ys.length = targets.length → ys.Pairwise (· ≤ ·) →
      squares (targets.zip weights) (isotonicFit targets weights) +
        squares ((isotonicFit targets weights).zip weights) ys ≤
          squares (targets.zip weights) ys := by
    intro ys hys hasc
    have hpooled := (pooled_pools hpos).squares_le (hys.trans hzip.symm) hasc
    rwa [hsnd] at hpooled
  have hposFit : ∀ t ∈ (isotonicFit targets weights).zip weights, 0 < t.2 := fun t ht =>
    hweights t.2 (List.of_mem_zip ht).2
  -- What a sequence is further away is at least its distance from the fit.
  have honly : ∀ ys : List K, ys.length = targets.length → ys.Pairwise (· ≤ ·) →
      squares (targets.zip weights) ys ≤
        squares (targets.zip weights) (isotonicFit targets weights) →
      ys = isotonicFit targets weights := by
    intro ys hys hasc hclose
    have hnear : squares ((isotonicFit targets weights).zip weights) ys ≤ 0 := by
      linarith [hall ys hys hasc]
    have heq := eq_of_squares_nonpos hposFit
      (by rw [List.length_zip, hfit, ← hlength, Nat.min_self, hys]) hnear
    rwa [List.map_fst_zip (by rw [hfit, hlength])] at heq
  have hnone := squares_self (targets.zip weights)
  rw [hfst] at hnone
  exact {
    length := hfit
    ascending := isotonicFit_ascending targets weights
    least := fun ys hys hasc => by
      have hnonneg := squares_nonneg hposFit ys
      linarith [hall ys hys hasc]
    only := honly
    kept := fun hasc => by
      have hzero := squares_nonneg hpos (isotonicFit targets weights)
      exact (honly targets rfl hasc (by rw [hnone]; exact hzero)).symm }

/-- The first two targets descend, and the last one is below the two before it. -/
theorem isotonicFit_closest_descents :
    ([4, 1, 3, 3, 2] : List ℚ).length = ([1, 2, 1, 1, 3] : List ℚ).length ∧
      (∀ w ∈ ([1, 2, 1, 1, 3] : List ℚ), 0 < w) ∧
      isotonicFit ([4, 1, 3, 3, 2] : List ℚ) [1, 2, 1, 1, 3] = [2, 2, 12 / 5, 12 / 5, 12 / 5] ∧
      Closest ([4, 1, 3, 3, 2] : List ℚ) [1, 2, 1, 1, 3] [2, 2, 12 / 5, 12 / 5, 12 / 5] := by
  have hweights : ∀ w ∈ ([1, 2, 1, 1, 3] : List ℚ), 0 < w := by decide
  have hfit : isotonicFit ([4, 1, 3, 3, 2] : List ℚ) [1, 2, 1, 1, 3] =
      [2, 2, 12 / 5, 12 / 5, 12 / 5] := by decide +kernel
  exact ⟨rfl, hweights, hfit, hfit ▸ isotonicFit_closest rfl hweights⟩

end Tiered.Layout
