import Mathlib.Algebra.BigOperators.Group.List.Lemmas
import Mathlib.Algebra.GroupWithZero.Nat
import Tiered.Layering.Crossings
import Tiered.Proofs.Writes

/-!
# Counting inversions with a tally

* `pairSum`, `crossSum`: sums over the pairs within one list, and over the pairs of two lists;
* `Covers`: entry `j` of a tally counts the numbers above `j - lowBit j` up to `j`
  (`covers_next` is what one step of noting a number needs);
* `Counts.add`, `Counts.upTo_eq`: noting a number, and asking how many are at most another;
* `inversions_eq`: the tally counts the pairs of places of which the first is larger.
-/

namespace Tiered.Layering

/-! ## Sums over pairs -/

section Sums

variable {α β : Type}

/-- The sum over all pairs of an entry of each list. -/
def crossSum (f : α → β → Nat) (xs : List α) (ys : List β) : Nat :=
  (xs.map fun x => (ys.map (f x)).sum).sum

/-- The sum over all pairs of entries of a list, the earlier entry first. -/
def pairSum (f : α → α → Nat) : List α → Nat
  | [] => 0
  | a :: rest => (rest.map (f a)).sum + pairSum f rest

theorem crossSum_cons (f : α → β → Nat) (x : α) (xs : List α) (ys : List β) :
    crossSum f (x :: xs) ys = (ys.map (f x)).sum + crossSum f xs ys := by
  rw [crossSum, List.map_cons, List.sum_cons]
  rfl

theorem crossSum_nil_right (f : α → β → Nat) (xs : List α) : crossSum f xs [] = 0 := by
  induction xs with
  | nil => rfl
  | cons x xs ih => rw [crossSum_cons, ih]; rfl

theorem crossSum_append_left (f : α → β → Nat) (xs xs' : List α) (ys : List β) :
    crossSum f (xs ++ xs') ys = crossSum f xs ys + crossSum f xs' ys := by
  rw [crossSum, List.map_append, List.sum_append]
  rfl

theorem crossSum_append_right (f : α → β → Nat) (xs : List α) (ys ys' : List β) :
    crossSum f xs (ys ++ ys') = crossSum f xs ys + crossSum f xs ys' := by
  induction xs with
  | nil => rfl
  | cons x xs ih =>
    rw [crossSum_cons, crossSum_cons, crossSum_cons, ih, List.map_append, List.sum_append]
    omega

theorem crossSum_congr {f f' : α → β → Nat} {xs : List α} {ys : List β}
    (h : ∀ x ∈ xs, ∀ y ∈ ys, f x y = f' x y) : crossSum f xs ys = crossSum f' xs ys := by
  unfold crossSum
  refine congrArg List.sum (List.map_congr_left fun x hx => ?_)
  exact congrArg List.sum (List.map_congr_left fun y hy => h x hx y hy)

theorem crossSum_eq_zero {f : α → β → Nat} {xs : List α} {ys : List β}
    (h : ∀ x ∈ xs, ∀ y ∈ ys, f x y = 0) : crossSum f xs ys = 0 := by
  rw [crossSum_congr h]
  simp [crossSum]

theorem crossSum_add (f f' : α → β → Nat) (xs : List α) (ys : List β) :
    crossSum (fun x y => f x y + f' x y) xs ys = crossSum f xs ys + crossSum f' xs ys := by
  induction xs with
  | nil => rfl
  | cons x xs ih =>
    rw [crossSum_cons, crossSum_cons, crossSum_cons, ih, List.sum_map_add]
    omega

theorem crossSum_comm (f : α → β → Nat) (xs : List α) (ys : List β) :
    crossSum f xs ys = crossSum (fun y x => f x y) ys xs := by
  induction xs with
  | nil => exact (crossSum_nil_right _ ys).symm
  | cons x xs ih =>
    have hsplit := crossSum_append_right (fun y x => f x y) ys [x] xs
    rw [List.singleton_append] at hsplit
    rw [crossSum_cons, hsplit, ih]
    simp [crossSum]

theorem crossSum_perm (f : α → β → Nat) {xs xs' : List α} {ys ys' : List β} (hx : xs.Perm xs')
    (hy : ys.Perm ys') : crossSum f xs ys = crossSum f xs' ys' := by
  have hleft : crossSum f xs ys = crossSum f xs' ys := (hx.map _).sum_eq
  rw [hleft, crossSum_comm, crossSum_comm f xs' ys']
  exact (hy.map _).sum_eq

theorem crossSum_map {γ δ : Type} (f : α → β → Nat) (left : γ → α) (right : δ → β) (us : List γ)
    (vs : List δ) : crossSum f (us.map left) (vs.map right) =
      crossSum (fun u v => f (left u) (right v)) us vs := by
  simp only [crossSum, List.map_map, Function.comp_def]

/-- Pairs that do not count may be left out. -/
theorem crossSum_filter (f : α → β → Nat) (p : α → Prop) (q : β → Prop) [DecidablePred p]
    [DecidablePred q] (xs : List α) (ys : List β) :
    crossSum (fun x y => if p x ∧ q y then f x y else 0) xs ys =
      crossSum f (xs.filter (p ·)) (ys.filter (q ·)) := by
  have hright : ∀ x, (ys.map fun y => if p x ∧ q y then f x y else 0).sum =
      if p x then ((ys.filter (q ·)).map (f x)).sum else 0 := by
    intro x
    induction ys with
    | nil => simp
    | cons y ys ih =>
      rw [List.map_cons, List.sum_cons, ih]
      by_cases hp : p x <;> by_cases hq : q y <;> simp [hp, hq]
  induction xs with
  | nil => rfl
  | cons x xs ih =>
    rw [crossSum_cons, ih, hright]
    by_cases hp : p x
    · rw [if_pos hp, List.filter_cons_of_pos (by simpa), crossSum_cons]
    · rw [if_neg hp, List.filter_cons_of_neg (by simpa), Nat.zero_add]

theorem crossSum_flatMap {γ δ : Type} (f : α → β → Nat) (left : γ → List α) (right : δ → List β)
    (us : List γ) (vs : List δ) :
    crossSum f (us.flatMap left) (vs.flatMap right) =
      crossSum (fun u v => crossSum f (left u) (right v)) us vs := by
  have hright : ∀ xs : List α, crossSum f xs (vs.flatMap right) =
      (vs.map fun v => crossSum f xs (right v)).sum := by
    intro xs
    induction vs with
    | nil => exact crossSum_nil_right f xs
    | cons v vs ih =>
      rw [List.flatMap_cons, crossSum_append_right, ih, List.map_cons, List.sum_cons]
  induction us with
  | nil => rfl
  | cons u us ih => rw [List.flatMap_cons, crossSum_append_left, ih, crossSum_cons, hright]

theorem pairSum_append (f : α → α → Nat) (xs ys : List α) :
    pairSum f (xs ++ ys) = pairSum f xs + crossSum f xs ys + pairSum f ys := by
  induction xs with
  | nil => exact (Nat.zero_add _).symm
  | cons x xs ih =>
    rw [List.cons_append, pairSum, pairSum, ih, crossSum_cons, List.map_append, List.sum_append]
    omega

theorem pairSum_congr {f f' : α → α → Nat} {xs : List α}
    (h : xs.Pairwise fun x y => f x y = f' x y) : pairSum f xs = pairSum f' xs := by
  induction xs with
  | nil => rfl
  | cons x xs ih =>
    obtain ⟨hx, hrest⟩ := List.pairwise_cons.mp h
    rw [pairSum, pairSum, ih hrest, List.map_congr_left hx]

theorem pairSum_eq_zero {f : α → α → Nat} {xs : List α} (h : xs.Pairwise fun x y => f x y = 0) :
    pairSum f xs = 0 := by
  induction xs with
  | nil => rfl
  | cons x xs ih =>
    obtain ⟨hx, hrest⟩ := List.pairwise_cons.mp h
    rw [pairSum, ih hrest, List.map_congr_left hx]
    simp

/-- Without regard to the order of two entries, the order of the list does not matter. -/
theorem pairSum_perm {f : α → α → Nat} (hsymm : ∀ a b, f a b = f b a) {xs ys : List α}
    (h : xs.Perm ys) : pairSum f xs = pairSum f ys := by
  induction h with
  | nil => rfl
  | cons x hrest ih => rw [pairSum, pairSum, ih, (hrest.map (f x)).sum_eq]
  | swap x y rest =>
    simp only [pairSum, List.map_cons, List.sum_cons]
    rw [hsymm x y]
    omega
  | trans _ _ ih ih' => exact ih.trans ih'

/-- Pairs within one block, and pairs of two blocks. -/
theorem pairSum_flatMap {γ : Type} (f : α → α → Nat) (block : γ → List α) (us : List γ) :
    pairSum f (us.flatMap block) = (us.map fun u => pairSum f (block u)).sum +
      pairSum (fun u v => crossSum f (block u) (block v)) us := by
  induction us with
  | nil => rfl
  | cons u us ih =>
    have hcross : crossSum f (block u) (us.flatMap block) =
        (us.map fun v => crossSum f (block u) (block v)).sum := by
      have h := crossSum_flatMap f block block [u] us
      rw [List.flatMap_singleton, crossSum_cons] at h
      exact h
    rw [List.flatMap_cons, pairSum_append, ih, hcross, pairSum, List.map_cons, List.sum_cons]
    omega

/-- Of all pairs only those count of which the earlier entry comes first. -/
theorem crossSum_eq_pairSum {f : α → α → Nat} {xs : List α} (hself : ∀ x ∈ xs, f x x = 0)
    (h : xs.Pairwise fun x y => f y x = 0) : crossSum f xs xs = pairSum f xs := by
  induction xs with
  | nil => rfl
  | cons x xs ih =>
    obtain ⟨hx, hrest⟩ := List.pairwise_cons.mp h
    have hfirst : crossSum f xs [x] = 0 := by
      refine crossSum_eq_zero fun y hy z hz => ?_
      rw [List.mem_singleton.mp hz]
      exact hx y hy
    have hsplit := crossSum_append_right f xs [x] xs
    rw [List.singleton_append] at hsplit
    rw [crossSum_cons, hsplit, hfirst, ih (fun y hy => hself y (List.mem_cons_of_mem _ hy)) hrest,
      List.map_cons, List.sum_cons, hself x List.mem_cons_self, pairSum]
    omega

theorem countP_eq_sum (p : α → Bool) (xs : List α) :
    xs.countP p = (xs.map fun x => if p x then 1 else 0).sum := by
  induction xs with
  | nil => rfl
  | cons x xs ih =>
    rw [List.countP_cons, ih, List.map_cons, List.sum_cons, Nat.add_comm]

theorem countP_product (p : α × β → Bool) (xs : List α) (ys : List β) :
    (xs.product ys).countP p = crossSum (fun x y => if p (x, y) then 1 else 0) xs ys := by
  rw [List.product, List.countP_flatMap, crossSum]
  refine congrArg List.sum (List.map_congr_left fun x _ => ?_)
  rw [Function.comp, List.countP_map, countP_eq_sum]
  rfl

end Sums

/-! ## Low bits -/

theorem lowBit_odd {n : Nat} (h : n % 2 = 1) : lowBit n = 1 := by
  rw [lowBit, if_pos (.inl h)]

theorem lowBit_double {n : Nat} (h : 0 < n) : lowBit (2 * n) = 2 * lowBit n := by
  have hne : ¬ (2 * n % 2 = 1 ∨ 2 * n = 0) := by omega
  rw [lowBit, if_neg hne, Nat.mul_div_cancel_left n Nat.zero_lt_two]

theorem lowBit_le {n : Nat} (h : 0 < n) : lowBit n ≤ n := by
  fun_induction lowBit n with
  | case1 => exact h
  | case2 n hn ih =>
    have := ih (by omega)
    omega

/-- Entry `j` counts the number `x`. -/
def Covers (j x : Nat) : Prop := j - lowBit j < x ∧ x ≤ j

instance (j x : Nat) : Decidable (Covers j x) := inferInstanceAs (Decidable (_ ∧ _))

/-- The entries behind `x` that count it are those that count the next number noted. -/
theorem covers_next {j x : Nat} (hx : 0 < x) (hj : x < j) :
    Covers j x ↔ Covers j (x + lowBit x) := by
  unfold Covers
  induction j using Nat.strongRecOn generalizing x with
  | ind j ih =>
    obtain ⟨i, rfl | rfl⟩ : ∃ i, j = 2 * i ∨ j = 2 * i + 1 := ⟨j / 2, by omega⟩
    · have hle := lowBit_le (n := i) (by omega)
      rw [lowBit_double (n := i) (by omega)]
      obtain ⟨y, rfl | rfl⟩ : ∃ y, x = 2 * y ∨ x = 2 * y + 1 := ⟨x / 2, by omega⟩
      · have hhalf := ih i (by omega) (x := y) (by omega) (by omega)
        rw [lowBit_double (n := y) (by omega)]
        omega
      · rw [lowBit_odd (n := 2 * y + 1) (by omega)]
        omega
    · -- An odd entry counts nothing but its own number.
      rw [lowBit_odd (n := 2 * i + 1) (by omega)]
      obtain ⟨y, rfl | rfl⟩ : ∃ y, x = 2 * y ∨ x = 2 * y + 1 := ⟨x / 2, by omega⟩
      · rw [lowBit_double (n := y) (by omega)]
        omega
      · rw [lowBit_odd (n := 2 * y + 1) (by omega)]
        omega

theorem covers_self {j : Nat} (hj : 0 < j) : Covers j j := by
  have := lowBit_pos j
  unfold Covers
  omega

/-! ## Tallies -/

namespace Tally

theorem size_addFrom (counts : Array Nat) (i : Nat) : (addFrom counts i).size = counts.size := by
  fun_induction addFrom counts i with
  | case1 counts i _ ih => rw [ih, Array.size_modify]
  | case2 => rfl

/-- Noting a number counts it in the entries that cover it. -/
theorem getD_addFrom (counts : Array Nat) {i : Nat} (hi : 0 < i) (j : Nat) :
    (addFrom counts i).getD j 0 =
      counts.getD j 0 + if j < counts.size ∧ Covers j i then 1 else 0 := by
  fun_induction addFrom counts i with
  | case1 counts i hlt ih =>
    have hpos := lowBit_pos i
    rw [ih (by omega), Array.size_modify, getD_modify]
    by_cases hj : j < counts.size
    · rcases Nat.lt_trichotomy i j with hij | rfl | hji
      · have hne : ¬ (i = j ∧ j < counts.size) := by omega
        rw [if_neg hne]
        simp only [hj, true_and, covers_next hi hij]
      · have hnext : ¬ Covers i (i + lowBit i) := by
          unfold Covers
          omega
        rw [if_pos ⟨rfl, hj⟩, if_neg fun h => hnext h.2, if_pos ⟨hj, covers_self hi⟩]
      · have hnow : ¬ Covers j i := by
          unfold Covers
          omega
        have hnext : ¬ Covers j (i + lowBit i) := by
          unfold Covers
          omega
        have hne : ¬ (i = j ∧ j < counts.size) := by omega
        rw [if_neg hne, if_neg fun h => hnext h.2, if_neg fun h => hnow h.2]
    · rw [if_neg fun h => hj h.2, if_neg fun h => hj h.1, if_neg fun h => hj h.1]
  | case2 counts i hge =>
    have hnone : ¬ (j < counts.size ∧ Covers j i) := by
      unfold Covers
      omega
    rw [if_neg hnone, Nat.add_zero]

/-- A tally holds the numbers `xs`. -/
structure Counts (t : Tally) (bound : Nat) (xs : List Nat) : Prop where
  size : t.counts.size = bound + 1
  pos : ∀ x ∈ xs, 0 < x
  entry : ∀ j, 0 < j → j ≤ bound → t.counts.getD j 0 = xs.countP (Covers j ·)

theorem counts_empty (bound : Nat) : (empty bound).Counts bound [] := by
  refine ⟨Array.size_replicate, (fun x hx => nomatch hx), fun j _ _ => ?_⟩
  rw [empty, getD_replicate, List.countP_nil]

variable {t : Tally} {bound : Nat} {xs : List Nat}

theorem Counts.add (h : t.Counts bound xs) {x : Nat} (hx : 0 < x) :
    (t.add x).Counts bound (x :: xs) := by
  constructor
  · rw [Tally.add, size_addFrom, h.size]
  · intro y hy
    rcases List.mem_cons.mp hy with rfl | hy
    · exact hx
    · exact h.pos y hy
  · intro j hpos hj
    have hsize : j < t.counts.size := by
      rw [h.size]
      omega
    rw [Tally.add, getD_addFrom _ hx, h.entry j hpos hj, List.countP_cons]
    simp only [hsize, true_and, decide_eq_true_eq]

theorem Counts.upTo_eq (h : t.Counts bound xs) {i : Nat} (hi : i ≤ bound) :
    t.upTo i = xs.countP (· ≤ i) := by
  fun_induction upTo t i with
  | case1 i hpos ih =>
    have hlow := lowBit_pos i
    rw [h.entry i hpos hi, ih (by omega), countP_eq_sum, countP_eq_sum, countP_eq_sum,
      ← List.sum_map_add]
    refine congrArg List.sum (List.map_congr_left fun x _ => ?_)
    -- A number up to `i` is counted in entry `i` or lies before all that the entry covers.
    by_cases hbefore : x ≤ i - lowBit i
    · have hupTo : x ≤ i := by omega
      have hnot : ¬ Covers i x := fun hc => Nat.not_lt.mpr hbefore hc.1
      simp [hbefore, hupTo, hnot]
    · simp only [Covers, Nat.lt_of_not_le hbefore, true_and, hbefore, decide_false,
        Bool.false_eq_true, if_false, Nat.add_zero]
  | case2 i hpos =>
    symm
    rw [List.countP_eq_zero]
    intro x hx
    have := h.pos x hx
    simp only [decide_eq_true_eq]
    omega

end Tally

/-! ## Inversions -/

/-- One if the second place is smaller. -/
def inverted (p q : Nat) : Nat := if q < p then 1 else 0

theorem inversions_go {t : Tally} {bound : Nat} {xs : List Nat} (h : t.Counts bound xs)
    {places : List Nat} (hplaces : ∀ p ∈ places, p < bound) :
    inversions.go t xs.length places =
      crossSum (fun x p => if p + 1 < x then 1 else 0) xs places + pairSum inverted places := by
  induction places generalizing t xs with
  | nil =>
    rw [crossSum_nil_right]
    rfl
  | cons p rest ih =>
    have hp := hplaces p List.mem_cons_self
    have hrest := ih (h.add (x := p + 1) (Nat.succ_pos p)) fun q hq =>
      hplaces q (List.mem_cons_of_mem _ hq)
    have hlarger : crossSum (fun x p => if p + 1 < x then 1 else 0) xs [p] =
        xs.length - t.upTo (p + 1) := by
      have hall := List.length_eq_countP_add_countP (· ≤ p + 1) (l := xs)
      simp only [decide_eq_true_eq] at hall
      have hcount : crossSum (fun x p => if p + 1 < x then 1 else 0) xs [p] =
          xs.countP fun x => ¬ x ≤ p + 1 := by
        rw [countP_eq_sum, crossSum]
        simp
      rw [h.upTo_eq (i := p + 1) hp, hcount]
      omega
    have hsplit := crossSum_append_right (fun x p => if p + 1 < x then 1 else 0) xs [p] rest
    rw [List.singleton_append] at hsplit
    rw [List.length_cons, crossSum_cons] at hrest
    have hbehind : (rest.map fun q => if q + 1 < p + 1 then 1 else 0) =
        rest.map (inverted p) := by
      simp [inverted]
    rw [inversions.go, hrest, hsplit, hlarger, pairSum, hbehind]
    omega

/-- **The tally counts inversions**: the pairs of places of which the first is larger. -/
theorem inversions_eq {bound : Nat} {places : List Nat} (h : ∀ p ∈ places, p < bound) :
    inversions bound places = pairSum inverted places := by
  have hgo := inversions_go (Tally.counts_empty bound) h
  rw [inversions]
  exact hgo.trans (Nat.zero_add _)

end Tiered.Layering
