import Mathlib.Data.List.DropRight
import Tiered.Decimal.Reader
import Tiered.Proofs.Exact

/-!
# Coordinates are written as canonical decimals

* `isNearest_of_hundredths`, `IsNearest.unique`: a number is rounded to the one count of hundredths
  that is nearest to it, of two to the one farther from zero;
* `Literal`: decimals as they are written, and `Canonical` ones, with no digit or sign to spare;
* `canonical_ofCount`, `value_ofCount`: a count is written as a canonical decimal that denotes it;
* `read?_canonical`: a canonical decimal is read as what it denotes;
* `trimmed_fixed`: it is the writing with two places, less the zeros and the point at its end.
-/

namespace Tiered

/-! ## Rounding -/

section Rounding

variable {K : Type} [Field K] [LinearOrder K]

/-- No other count of hundredths is nearer to `x`, and what is as near is nearer to zero. -/
structure IsNearest (x : K) (k : ℤ) : Prop where
  near : ∀ j : ℤ, |x * 100 - k| ≤ |x * 100 - j|
  away : ∀ j : ℤ, j ≠ k → |x * 100 - j| = |x * 100 - k| → |j| < |k|

theorem IsNearest.unique {x : K} {j k : ℤ} (hj : IsNearest x j) (hk : IsNearest x k) :
    j = k := by
  by_contra hne
  have hdist : |x * 100 - j| = |x * 100 - k| := le_antisymm (hj.near k) (hk.near j)
  exact lt_asymm (hk.away j hne hdist) (hj.away k (Ne.symm hne) hdist.symm)

theorem IsNearest.neg {x : K} {k : ℤ} (h : IsNearest (-x) k) : IsNearest x (-k) := by
  have hdist (j : ℤ) : |x * 100 - j| = |-x * 100 - (-j : ℤ)| := by
    rw [← abs_neg, Int.cast_neg]
    ring_nf
  constructor
  · intro j
    rw [hdist, hdist j, neg_neg]
    exact h.near (-j)
  · intro j hne heq
    rw [hdist, hdist (-k), neg_neg] at heq
    rw [← abs_neg, abs_neg k]
    exact h.away (-j) (by omega) heq

variable [IsStrictOrderedRing K] [FloorRing K]

theorem isNearest_floor {x : K} (h : 0 ≤ x) : IsNearest x ⌊x * 100 + 1 / 2⌋ := by
  have hlow := Int.floor_le (x * 100 + 1 / 2)
  have hhigh := Int.lt_floor_add_one (x * 100 + 1 / 2)
  generalize ⌊x * 100 + 1 / 2⌋ = k at hlow hhigh ⊢
  have hnear : |x * 100 - k| ≤ 1 / 2 := abs_le.mpr ⟨by linarith, by linarith⟩
  have hbelow {j : ℤ} (hj : j ≤ k - 1) : k - 1 / 2 - j ≤ |x * 100 - j| := by
    apply le_trans _ (le_abs_self _)
    linarith
  have habove {j : ℤ} (hj : k + 1 ≤ j) : 1 / 2 < |x * 100 - j| := by
    have hcast : (k : K) + 1 ≤ j := by exact_mod_cast hj
    apply lt_of_lt_of_le _ (neg_le_abs _)
    linarith
  constructor
  · intro j
    rcases lt_trichotomy j k with hj | rfl | hj
    · have hcast : (j : K) ≤ k - 1 := by exact_mod_cast Int.le_sub_one_of_lt hj
      have := hbelow (Int.le_sub_one_of_lt hj)
      linarith
    · exact le_rfl
    · have := habove (Int.add_one_le_of_lt hj)
      linarith
  · intro j hne heq
    rcases lt_or_gt_of_ne hne with hj | hj
    · -- The number lies midway, and it is not negative.
      have hmid : (j : K) + k = 2 * (x * 100) := by
        rcases abs_eq_abs.mp heq with hsame | hmid
        · exact absurd (Int.cast_injective (sub_right_injective hsame)) hne
        · linarith
      have hgap : k - j ≤ 1 := by
        have hcast : (k : K) - j ≤ 1 := by
          have := (abs_le.mp hnear).1
          linarith
        exact_mod_cast hcast
      have hsum : 0 ≤ j + k := by
        have hcast : (0 : K) ≤ j + k := by linarith
        exact_mod_cast hcast
      rw [abs_of_nonneg (by omega), abs_of_nonneg (by omega)]
      exact hj
    · have := habove (Int.add_one_le_of_lt hj)
      linarith

theorem isNearest_of_hundredths [PlaneFunctions K] {x : K} {k : ℤ}
    (h : Scalar.hundredths x = .count k) : IsNearest x k := by
  rw [← Hundredths.count.inj h]
  split
  · rename_i hx
    exact isNearest_floor hx
  · apply IsNearest.neg
    apply isNearest_floor
    linarith

end Rounding

/-! ## Decimals as they are written -/

/-- A minus or none, a whole part, and the places behind a point. There is no point without them. -/
structure Literal where
  negative : Bool
  whole : List Char
  places : List Char

namespace Literal

open Numeral (ofDigits)

def chars (l : Literal) : List Char :=
  (if l.negative then ['-'] else []) ++
    (l.whole ++ if l.places = [] then [] else '.' :: l.places)

def value {K : Type} [Field K] (l : Literal) : K :=
  let size : K := ofDigits (l.whole ++ l.places) / (10 ^ l.places.length : ℕ)
  if l.negative then -size else size

/-- A decimal with no digit and no sign that could be left out. -/
structure Canonical (l : Literal) : Prop where
  digits : ∀ c ∈ l.whole ++ l.places, c.isDigit = true
  filled : l.whole ≠ []
  leading : l.whole.head? = some '0' → l.whole = ['0']
  trailing : l.places.getLast? ≠ some '0'
  short : l.places.length ≤ 2
  sign : l.negative = true → ofDigits (l.whole ++ l.places) ≠ 0

/-! ## Hundredths -/

/-- The places of so many hundredths, as far as there is something in them. -/
def placesOf (n : Nat) : List Char :=
  if n % 100 = 0 then []
  else if n % 10 = 0 then [Nat.digitChar (n / 10 % 10)]
  else [Nat.digitChar (n / 10 % 10), Nat.digitChar (n % 10)]

def ofCount (k : ℤ) : Literal := ⟨k < 0, Nat.toDigits 10 (k.natAbs / 100), placesOf k.natAbs⟩

theorem chars_ofCount (k : ℤ) : (ofCount k).chars = (Hundredths.count k).chars := by
  have hdigits (n : Nat) : Hundredths.digits n = Nat.toDigits 10 (n / 100) ++
      if placesOf n = [] then [] else '.' :: placesOf n := by
    simp only [Hundredths.digits, Nat.toString_eq_ofList_toDigits, String.toList_ofList, placesOf]
    split
    · rw [if_pos rfl, List.append_nil]
    · split
      · rfl
      · rfl
  by_cases hk : k < 0
  · simp [ofCount, chars, Hundredths.chars, hk, hdigits]
  · simp [ofCount, chars, Hundredths.chars, hk, hdigits]

theorem ofDigits_append_singleton (ds : List Char) {d : Nat} (h : d < 10) :
    ofDigits (ds ++ [d.digitChar]) = 10 * ofDigits ds + d := by
  rw [ofDigits, List.foldl_append]
  simp only [List.foldl_cons, List.foldl_nil]
  congr
  exact Nat.toNat_digitChar_sub_48_of_lt_ten h

theorem ofDigits_toDigits (n : Nat) : ofDigits (Nat.toDigits 10 n) = n :=
  Nat.ofDigitChars_ten_toDigits

/-- The digits denote the hundredths, in a unit that is a power of ten. -/
theorem ofDigits_ofCount (n : Nat) :
    ofDigits (Nat.toDigits 10 (n / 100) ++ placesOf n) * 100 =
      n * 10 ^ (placesOf n).length := by
  unfold placesOf
  split
  · rw [List.append_nil, ofDigits_toDigits, List.length_nil]
    omega
  · have htenth := ofDigits_append_singleton (Nat.toDigits 10 (n / 100))
      (Nat.mod_lt (n / 10) (Nat.succ_pos 9))
    rw [ofDigits_toDigits] at htenth
    split
    · rw [htenth, List.length_singleton]
      omega
    · rw [List.append_cons, ofDigits_append_singleton _ (Nat.mod_lt n (Nat.succ_pos 9)), htenth]
      simp only [List.length_cons, List.length_nil]
      omega

theorem value_ofCount {K : Type} [Field K] [CharZero K] (k : ℤ) :
    (ofCount k).value = (k : K) / (100 : ℕ) := by
  have hsize : (ofDigits ((ofCount k).whole ++ (ofCount k).places) : K) /
      (10 ^ (ofCount k).places.length : ℕ) = (k.natAbs : K) / (100 : ℕ) := by
    rw [div_eq_div_iff (Nat.cast_ne_zero.mpr (Nat.pow_pos (by decide)).ne')
      (Nat.cast_ne_zero.mpr (by decide))]
    exact_mod_cast ofDigits_ofCount k.natAbs
  unfold value
  dsimp only
  rw [hsize]
  by_cases hk : k < 0
  · have hneg : (ofCount k).negative = true := decide_eq_true hk
    rw [if_pos hneg, Nat.cast_natAbs, abs_of_neg hk, Int.cast_neg, neg_div, neg_neg]
  · have hneg : ¬ (ofCount k).negative = true := by simpa [ofCount] using hk
    rw [if_neg hneg, Nat.cast_natAbs, abs_of_nonneg (not_lt.mp hk)]

theorem head?_toDigits {n : Nat} (h : (Nat.toDigits 10 n).head? = some '0') : n = 0 := by
  induction n using Nat.strong_induction_on with
  | h n ih =>
    by_cases hn : n < 10
    · rw [Nat.toDigits_of_lt_base hn] at h
      simpa using h
    · rw [Nat.toDigits_of_base_le (by decide) (not_lt.mp hn),
        List.head?_append_of_ne_nil _ Nat.toDigits_ne_nil] at h
      have := ih (n / 10) (by omega) h
      omega

theorem isDigit_of_mem_placesOf {n : Nat} {c : Char} (h : c ∈ placesOf n) :
    c.isDigit = true := by
  have htenth : (Nat.digitChar (n / 10 % 10)).isDigit = true :=
    Nat.isDigit_digitChar.trans (decide_eq_true (Nat.mod_lt _ (Nat.succ_pos 9)))
  have hlast : (Nat.digitChar (n % 10)).isDigit = true :=
    Nat.isDigit_digitChar.trans (decide_eq_true (Nat.mod_lt _ (Nat.succ_pos 9)))
  unfold placesOf at h
  split at h
  · cases h
  · split at h
    · rw [List.mem_singleton.mp h]
      exact htenth
    · rcases List.mem_cons.mp h with rfl | h
      · exact htenth
      · rw [List.mem_singleton.mp h]
        exact hlast

theorem getLast?_placesOf (n : Nat) : (placesOf n).getLast? ≠ some '0' := by
  unfold placesOf
  split
  · exact nofun
  · split
    · rw [List.getLast?_singleton, ne_eq, Option.some.injEq, Nat.digitChar_eq_zero]
      omega
    · rw [List.getLast?_cons_cons, List.getLast?_singleton, ne_eq, Option.some.injEq,
        Nat.digitChar_eq_zero]
      assumption

theorem canonical_ofCount (k : ℤ) : (ofCount k).Canonical where
  digits c hc := by
    rcases List.mem_append.mp hc with hc | hc
    · exact Nat.isDigit_of_mem_toDigits (by decide) le_rfl hc
    · exact isDigit_of_mem_placesOf hc
  filled := Nat.toDigits_ne_nil
  leading h := by
    have hzero : k.natAbs / 100 = 0 := head?_toDigits h
    change Nat.toDigits 10 (k.natAbs / 100) = ['0']
    rw [hzero]
    exact Nat.toDigits_zero 10
  trailing := getLast?_placesOf _
  short := by
    change (placesOf k.natAbs).length ≤ 2
    unfold placesOf
    split
    · exact Nat.zero_le 2
    · split
      · exact Nat.le_succ 1
      · exact le_rfl
  sign h hzero := by
    have hk : k < 0 := of_decide_eq_true h
    have hcount := ofDigits_ofCount k.natAbs
    rw [show ofDigits (Nat.toDigits 10 (k.natAbs / 100) ++ placesOf k.natAbs) = 0 from hzero,
      Nat.zero_mul] at hcount
    have hpower : 0 < 10 ^ (placesOf k.natAbs).length := Nat.pow_pos (by decide)
    have := (Nat.mul_eq_zero.mp hcount.symm).resolve_right hpower.ne'
    omega

/-! ## Reading what is written -/

theorem decimal?_digits (negative : Bool) {whole places : List Char}
    (hwhole : ∀ c ∈ whole, c.isDigit = true) (hplaces : ∀ c ∈ places, c.isDigit = true)
    (hne : whole ≠ []) :
    Numeral.decimal? negative (whole ++ if places = [] then [] else '.' :: places) =
      some (.decimal negative (ofDigits (whole ++ places)) (-places.length)) := by
  have hfilled : whole.isEmpty = false := by simpa using hne
  unfold Numeral.decimal?
  rw [List.takeWhile_append_of_pos hwhole, List.dropWhile_append_of_pos hwhole]
  by_cases hnil : places = []
  · subst hnil
    simp [hfilled, Numeral.exponent?]
  · rw [if_neg hnil, List.takeWhile_cons_of_neg (by decide), List.dropWhile_cons_of_neg (by decide)]
    have htake : places.takeWhile Char.isDigit = places := List.takeWhile_eq_self_iff.mpr hplaces
    have hdrop : places.dropWhile Char.isDigit = [] := List.dropWhile_eq_nil_iff.mpr hplaces
    simp [hfilled, htake, hdrop, Numeral.exponent?]

theorem toLower_of_isDigit {c : Char} (h : c.isDigit = true) : c.toLower = c := by
  have hdigit : c.val ≤ '9'.val := (by simpa [Char.isDigit] using h : _ ∧ _).2
  unfold Char.toLower
  rw [dif_neg]
  rintro ⟨hupper, -⟩
  exact absurd (UInt32.le_trans hupper hdigit) (by decide)

theorem sign_of_isDigit {c : Char} (h : c.isDigit = true) (s : List Char) :
    Numeral.sign (c :: s) = (false, c :: s) := by
  unfold Numeral.sign
  split
  · rename_i heq
    rw [(List.cons.inj heq).1] at h
    exact absurd h (by decide)
  · rename_i heq
    rw [(List.cons.inj heq).1] at h
    exact absurd h (by decide)
  · rfl

/-- The words for no bound and for no number do not begin with a digit. -/
theorem read?_of_isDigit {text : String} {negative : Bool} {c : Char} {s : List Char}
    (hsign : Numeral.sign text.toList = (negative, c :: s)) (hc : c.isDigit = true) :
    Numeral.read? text = Numeral.decimal? negative (c :: s) := by
  have hword {word : String} (h : word.toList.head?.any Char.isDigit = false) :
      String.ofList ((c :: s).map Char.toLower) ≠ word := by
    rintro rfl
    rw [String.toList_ofList, List.map_cons, List.head?_cons, toLower_of_isDigit hc,
      Option.any_some, hc] at h
    exact Bool.noConfusion h
  unfold Numeral.read?
  rw [hsign]
  dsimp only
  split
  · exact absurd ‹_› (hword (by decide))
  · exact absurd ‹_› (hword (by decide))
  · exact absurd ‹_› (hword (by decide))
  · rfl

/-- A canonical decimal is read as what it denotes. -/
theorem read?_canonical {l : Literal} (h : l.Canonical) :
    Numeral.read? (String.ofList l.chars) =
      some (.decimal l.negative (ofDigits (l.whole ++ l.places)) (-l.places.length)) := by
  obtain ⟨negative, whole, places⟩ := l
  obtain ⟨hwhole, hplaces⟩ := List.forall_mem_append.mp h.digits
  obtain ⟨c, rest, rfl⟩ := List.exists_cons_of_ne_nil h.filled
  have hc : c.isDigit = true := hwhole c List.mem_cons_self
  have hread := decimal?_digits negative hwhole hplaces h.filled
  cases negative with
  | true => exact (read?_of_isDigit (by rw [String.toList_ofList]; rfl) hc).trans hread
  | false =>
    refine (read?_of_isDigit ?_ hc).trans hread
    rw [String.toList_ofList]
    exact sign_of_isDigit hc _

theorem finite?_value {K : Type} [Field K] [LinearOrder K] [FloorRing K] [PlaneFunctions K]
    (l : Literal) :
    Numeral.finite? (.decimal l.negative (ofDigits (l.whole ++ l.places)) (-l.places.length)) =
      some (l.value : K) := by
  change some (if l.negative = true then
    -((ofDigits (l.whole ++ l.places) : K) * (10 : ℕ) ^ (-l.places.length : ℤ))
    else (ofDigits (l.whole ++ l.places) : K) * (10 : ℕ) ^ (-l.places.length : ℤ)) = _
  rw [zpow_neg, zpow_natCast, ← Nat.cast_pow, ← div_eq_mul_inv]
  rfl

/-! ## Two places in full -/

/-- What is written with both places, and a sign that says that it is below zero. -/
def fixed (k : ℤ) : List Char :=
  (if k < 0 then ['-'] else []) ++ (Nat.toDigits 10 (k.natAbs / 100) ++
    ['.', Nat.digitChar (k.natAbs / 10 % 10), Nat.digitChar (k.natAbs % 10)])

/-- Without the zeros and then the points at its end. -/
def trimmed (s : List Char) : List Char := (s.rdropWhile (· == '0')).rdropWhile (· == '.')

theorem trimmed_places {front : List Char} (hfront : front.rdropWhile (· == '.') = front)
    (n : Nat) :
    trimmed (front ++ ['.', Nat.digitChar (n / 10 % 10), Nat.digitChar (n % 10)]) =
      front ++ if placesOf n = [] then [] else '.' :: placesOf n := by
  have hsplit (t u : Char) : front ++ ['.', t, u] = ((front ++ ['.']) ++ [t]) ++ [u] := by simp
  have hpoint (m : Nat) : ¬ (Nat.digitChar m == '.') = true := by simp
  unfold trimmed
  rw [hsplit]
  by_cases hlast : n % 10 = 0
  · rw [List.rdropWhile_concat_pos _ _ _ (by simpa using hlast)]
    by_cases htenth : n / 10 % 10 = 0
    · have hnone : placesOf n = [] := if_pos (by omega)
      rw [List.rdropWhile_concat_pos _ _ _ (by simpa using htenth),
        List.rdropWhile_concat_neg _ _ _ (by decide),
        List.rdropWhile_concat_pos _ _ _ (by decide), hfront, if_pos hnone, List.append_nil]
    · have hone : placesOf n = [Nat.digitChar (n / 10 % 10)] :=
        (if_neg (by omega)).trans (if_pos hlast)
      rw [List.rdropWhile_concat_neg _ _ _ (by simpa using htenth),
        List.rdropWhile_concat_neg (· == '.') _ _ (hpoint _), hone]
      simp
  · have htwo : placesOf n = [Nat.digitChar (n / 10 % 10), Nat.digitChar (n % 10)] :=
      (if_neg (by omega)).trans (if_neg hlast)
    rw [List.rdropWhile_concat_neg _ _ _ (by simpa using hlast),
      List.rdropWhile_concat_neg (· == '.') _ _ (hpoint _), htwo]
    simp

theorem trimmed_fixed (k : ℤ) : trimmed (fixed k) = (Hundredths.count k).chars := by
  rw [← chars_ofCount, fixed, ← List.append_assoc]
  refine (trimmed_places ?_ k.natAbs).trans ?_
  · rw [List.rdropWhile_eq_self_iff]
    intro hne
    rw [List.getLast_append_of_ne_nil _ Nat.toDigits_ne_nil]
    have hdigit := Nat.isDigit_of_mem_toDigits (by decide) le_rfl
      (List.getLast_mem (Nat.toDigits_ne_nil (n := k.natAbs / 100) (b := 10)))
    intro hpoint
    rw [eq_of_beq hpoint] at hdigit
    exact absurd hdigit (by decide)
  · rw [List.append_assoc]
    by_cases hk : k < 0
    · simp [ofCount, chars, hk]
    · simp [ofCount, chars, hk]

end Literal

namespace Scalar

variable {K : Type} [Field K] [LinearOrder K] [FloorRing K] [PlaneFunctions K] {x y : K} {k : ℤ}

theorem text_eq (h : Scalar.hundredths x = .count k) :
    Scalar.text x = String.ofList (Literal.ofCount k).chars := by
  rw [Literal.chars_ofCount, ← h]
  rfl

theorem read?_text (h : Scalar.hundredths x = .count k) :
    (Numeral.read? (Scalar.text x)).bind Numeral.finite? = some ((k : K) / (100 : ℕ)) := by
  rw [text_eq h, Literal.read?_canonical (Literal.canonical_ofCount _), Option.bind_some,
    Literal.finite?_value, Literal.value_ofCount]

/-- The reader tells apart what is rounded to different counts. -/
theorem text_eq_text_iff {j : ℤ} (hx : Scalar.hundredths x = .count j)
    (hy : Scalar.hundredths y = .count k) : Scalar.text x = Scalar.text y ↔ j = k := by
  constructor
  · intro h
    have hread := read?_text hy
    rw [← h, read?_text hx, Option.some.injEq] at hread
    exact Int.cast_injective ((div_left_inj' (Nat.cast_ne_zero.mpr (by decide))).mp hread)
  · rintro rfl
    rw [text_eq hx, text_eq hy]

variable [IsStrictOrderedRing K]

/-- **Canonical coordinates.** A number is rounded to the one nearest count `k` of hundredths, and
written as a canonical decimal whose value is that of `k` hundredths, as the reader finds as well.
It is what is left of both places when the zeros at the end go and then the point. Numbers are
written alike if and only if they are rounded alike. -/
theorem text_canonical (x : K) :
    ∃ k : ℤ, IsNearest x k ∧ (∀ j, IsNearest x j → j = k) ∧
      (∃ l : Literal, (Scalar.text x).toList = l.chars ∧ l.Canonical ∧
        l.value = (k : K) / (100 : ℕ)) ∧
      (Numeral.read? (Scalar.text x)).bind Numeral.finite? = some ((k : K) / (100 : ℕ)) ∧
      (Scalar.text x).toList = Literal.trimmed (Literal.fixed k) ∧
      ∀ y : K, Scalar.text y = Scalar.text x ↔ IsNearest y k := by
  obtain ⟨k, hx⟩ : ∃ k, Scalar.hundredths x = .count k := ⟨_, rfl⟩
  have hk : IsNearest x k := isNearest_of_hundredths hx
  have htext : (Scalar.text x).toList = (Literal.ofCount k).chars := by
    rw [text_eq hx, String.toList_ofList]
  refine ⟨k, hk, fun j hj => hj.unique hk,
    ⟨Literal.ofCount k, htext, Literal.canonical_ofCount k, Literal.value_ofCount k⟩,
    read?_text hx, ?_, fun y => ?_⟩
  · rw [htext, Literal.trimmed_fixed, Literal.chars_ofCount]
  · obtain ⟨j, hy⟩ : ∃ j, Scalar.hundredths y = .count j := ⟨_, rfl⟩
    have hj : IsNearest y j := isNearest_of_hundredths hy
    rw [text_eq_text_iff hy hx]
    constructor
    · rintro rfl
      exact hj
    · intro h
      exact hj.unique h

/-- A number midway between two counts, below zero. -/
theorem text_canonical_midway :
    Scalar.text (-1 / 200 : ℚ) = "-0.01" ∧ IsNearest (-1 / 200 : ℚ) (-1) ∧
      (∃ l : Literal, "-0.01".toList = l.chars ∧ l.Canonical ∧
        l.value = ((-1 : ℤ) : ℚ) / (100 : ℕ)) ∧
      (Numeral.read? "-0.01").bind Numeral.finite? = some (((-1 : ℤ) : ℚ) / (100 : ℕ)) ∧
      "-0.01".toList = Literal.trimmed (Literal.fixed (-1)) ∧
      ∀ y : ℚ, Scalar.text y = "-0.01" ↔ IsNearest y (-1) := by
  have htext : Scalar.text (-1 / 200 : ℚ) = "-0.01" := by decide +kernel
  have hcount : Scalar.hundredths (-1 / 200 : ℚ) = .count (-1) := by decide +kernel
  obtain ⟨k, hk, hunique, hliteral, hread, htrim, halike⟩ := text_canonical (-1 / 200 : ℚ)
  obtain rfl : -1 = k := hunique (-1) (isNearest_of_hundredths hcount)
  rw [htext] at hliteral hread htrim halike
  exact ⟨htext, hk, hliteral, hread, htrim, halike⟩

example : [12, 25 / 2, 1 / 3, -1 / 1000, 100].map (Scalar.text (K := ℚ)) =
    ["12", "12.5", "0.33", "0", "100"] := by
  decide +kernel

end Scalar

end Tiered
