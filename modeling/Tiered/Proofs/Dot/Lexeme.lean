import Tiered.Proofs.Dot.Grammar
import Tiered.Proofs.Dot.Spelling

/-!
# Reading single tokens

The reader of each kind of token against the texts of that kind.

* `quoted_iff`, `markup_iff`, `afterComment_iff`: strings, markup and comments end at one place;
* `word_longest`, `unsigned_longest`, `numeral_longest`: of words and numerals as much is read as
  there is.
-/
namespace Tiered.Dot

/-! ## Strings, markup and comments end at one place -/

theorem quoted_iff {t v r : List Char} :
    quoted? t = some (v, r) ↔ ∃ s, t = s ++ '"' :: r ∧ QuotedBody s v := by
  constructor
  · intro h
    fun_induction quoted? t generalizing v with
    | case1 => cases h
    | case2 rest =>
      cases h
      exact ⟨[], rfl, .nil⟩
    | case3 rest ih =>
      obtain ⟨⟨v', r'⟩, hq, he⟩ := Option.map_eq_some_iff.mp h
      cases he
      obtain ⟨s, rfl, hs⟩ := ih hq
      exact ⟨'\\' :: '"' :: s, rfl, .quote hs⟩
    | case4 rest ih =>
      obtain ⟨s, rfl, hs⟩ := ih h
      exact ⟨'\\' :: '\n' :: s, rfl, .lineFeed hs⟩
    | case5 rest ih =>
      obtain ⟨s, rfl, hs⟩ := ih h
      exact ⟨'\\' :: '\r' :: '\n' :: s, rfl, .lineEnd hs⟩
    | case6 rest hne ih =>
      obtain ⟨s, rfl, hs⟩ := ih h
      refine ⟨'\\' :: '\r' :: s, rfl, .carriageReturn ?_ hs⟩
      intro hhead
      obtain ⟨s', rfl⟩ : ∃ s', s = '\n' :: s' := by
        cases s with
        | nil => cases hhead
        | cons c s' => cases hhead; exact ⟨s', rfl⟩
      exact hne _ rfl
    | case7 c rest h1 h2 _ h3 ih =>
      obtain ⟨⟨v', r'⟩, hq, he⟩ := Option.map_eq_some_iff.mp h
      cases he
      obtain ⟨s, rfl, hs⟩ := ih hq
      exact ⟨'\\' :: c :: s, rfl, .pair h1 h2 h3 hs⟩
    | case8 => cases h
    | case9 c rest h1 _ _ _ _ h2 h3 ih =>
      obtain ⟨⟨v', r'⟩, hq, he⟩ := Option.map_eq_some_iff.mp h
      cases he
      obtain ⟨s, rfl, hs⟩ := ih hq
      refine ⟨c :: s, rfl, .plain h1 ?_ hs⟩
      rintro rfl
      cases s with
      | nil => exact h2 _ _ rfl rfl
      | cons d s => exact h2 _ _ rfl rfl
  · rintro ⟨s, rfl, hs⟩
    induction hs with
    | nil => rfl
    | plain h1 h2 _ ih => rw [List.cons_append, quoted_plain h1 h2, ih]; rfl
    | quote _ ih => rw [List.cons_append, List.cons_append, quoted_escaped, ih]; rfl
    | lineFeed _ ih => exact ih
    | lineEnd _ ih => exact ih
    | @carriageReturn s v hne _ ih =>
      rw [List.cons_append, List.cons_append, quoted?]
      · exact ih
      · intro rest hrest
        cases s with
        | nil => cases hrest
        | cons c s => cases hrest; exact hne rfl
    | pair h1 h2 h3 _ ih =>
      rw [List.cons_append, List.cons_append, quoted_pair h1 h2 h3, ih]
      rfl

theorem markup_iff {t v r : List Char} :
    markup? 0 t = some (v, r) ↔ t = v ++ '>' :: r ∧ balanced 0 v = true := by
  constructor
  · intro h
    refine ⟨?_, balanced_of_markup h⟩
    generalize 0 = depth at h
    fun_induction markup? depth t generalizing v with
    | case1 => cases h
    | case2 depth rest ih | case4 rest depth ih | case5 depth c rest _ _ ih =>
      obtain ⟨⟨v', r'⟩, hm, he⟩ := Option.map_eq_some_iff.mp h
      cases he
      rw [ih hm]
      rfl
    | case3 => cases h; rfl
  · rintro ⟨rfl, hv⟩
    exact markup_balanced hv r

theorem afterComment_iff {t r : List Char} :
    afterComment? t = some r ↔ ∃ s, t = s ++ '*' :: '/' :: r ∧ ¬ ['*', '/'] <:+: s := by
  constructor
  · intro h
    fun_induction afterComment? t with
    | case1 => cases h
    | case2 rest =>
      cases h
      exact ⟨[], rfl, by simp⟩
    | case3 c rest hne ih =>
      obtain ⟨s, rfl, hs⟩ := ih h
      refine ⟨c :: s, rfl, ?_⟩
      intro hin
      rcases List.infix_cons_iff.mp hin with hstart | hin
      · obtain ⟨s', hs'⟩ := hstart
        rw [List.cons_append, List.cons_append, List.nil_append, List.cons.injEq] at hs'
        obtain ⟨rfl, rfl⟩ := hs'
        exact hne _ rfl rfl
      · exact hs hin
  · rintro ⟨s, rfl, hs⟩
    induction s with
    | nil => rfl
    | cons c s ih =>
      rw [List.cons_append, afterComment?]
      · exact ih fun hin => hs (List.infix_cons hin)
      · rintro rest rfl hrest
        cases s with
        | nil => cases hrest
        | cons d s =>
          cases hrest
          exact hs ⟨[], s, rfl⟩

/-! ## Words and numerals take as much as they can -/

theorem isDigit_iff {c : Char} : c.isDigit = true ↔ 48 ≤ c.toNat ∧ c.toNat ≤ 57 := by
  simp [Char.isDigit, UInt32.le_iff_toNat_le]

theorem isAlpha_iff {c : Char} : c.isAlpha = true ↔
    (65 ≤ c.toNat ∧ c.toNat ≤ 90) ∨ (97 ≤ c.toNat ∧ c.toNat ≤ 122) := by
  have hletter : c.isAlpha = (decide ('A'.val ≤ c.val ∧ c.val ≤ 'Z'.val) ||
      (decide ('a'.val ≤ c.val) && decide (c.val ≤ 'z'.val))) := rfl
  simp [hletter, UInt32.le_iff_toNat_le]

theorem not_isBlank_of_isWordPart {c : Char} (h : isWordPart c = true) :
    Text.isBlank c = false := by
  cases hb : Text.isBlank c with
  | false => rfl
  | true =>
    simp only [isWordPart, Char.isAlphanum, hb, Bool.or_eq_true, isAlpha_iff, isDigit_iff,
      beq_iff_eq, Bool.not_true, Bool.and_false, or_false, Bool.false_eq_true] at h
    rcases h with h | rfl
    · simp only [Text.isBlank, Bool.or_eq_true, Bool.and_eq_true, decide_eq_true_eq,
        beq_iff_eq] at hb
      omega
    · exact absurd hb (by decide)

theorem isWordStart_iff {c : Char} (hc : Text.isBlank c = false) :
    isWordStart c = true ↔ isWordPart c = true ∧ c.isDigit = false := by
  have hdigit : c.isDigit = false ↔ ¬ (48 ≤ c.toNat ∧ c.toNat ≤ 57) := by
    rw [← isDigit_iff, Bool.not_eq_true]
  have hunder : c = '_' → c.toNat = 95 := fun h => h ▸ rfl
  simp only [isWordStart, isWordPart, Char.isAlphanum, hc, Bool.or_eq_true, isAlpha_iff,
    isDigit_iff, beq_iff_eq, decide_eq_true_eq, Bool.not_false, Bool.and_true, hdigit]
  constructor
  · rintro ((h | h) | h)
    · omega
    · have := hunder h
      exact ⟨.inl (.inr h), by omega⟩
    · exact ⟨.inr h, by omega⟩
  · rintro ⟨((h | h) | h) | h, hd⟩
    · exact .inl (.inl h)
    · exact absurd h hd
    · exact .inl (.inr h)
    · exact .inr h

theorem not_wordStart_of_isDigit {c : Char} (h : c.isDigit = true) : isWordStart c = false := by
  have hdigit := isDigit_iff.mp h
  have hunder : c = '_' → c.toNat = 95 := fun h => h ▸ rfl
  rw [Bool.eq_false_iff]
  simp only [isWordStart, Bool.or_eq_true, isAlpha_iff, beq_iff_eq, decide_eq_true_eq, ne_eq]
  rintro ((h | h) | h)
  · omega
  · have := hunder h
    omega
  · omega

theorem mem_takeWhile {p : Char → Bool} {s : List Char} {c : Char} (h : c ∈ s.takeWhile p) :
    p c = true :=
  List.all_eq_true.mp List.all_takeWhile c h

theorem word_sound {c : Char} {s w r : List Char} (hc : Text.isBlank c = false)
    (h : word? (c :: s) = some (w, r)) : c :: s = w ++ r ∧ IsWord w := by
  by_cases hs : isWordStart c
  · simp only [word?, hs, if_true, Option.some.injEq, Prod.mk.injEq] at h
    obtain ⟨rfl, rfl⟩ := h
    obtain ⟨hpart, hdigit⟩ := (isWordStart_iff hc).mp hs
    refine ⟨by simp, ⟨c, _, rfl, hdigit⟩, ?_⟩
    intro d hd
    rcases List.mem_cons.mp hd with rfl | hd
    · exact hpart
    · exact mem_takeWhile hd
  · simp [word?, hs] at h

/-- A word that begins a text is read, with what goes on behind it. -/
theorem word_longest {w : List Char} (h : IsWord w) (rest : List Char) :
    word? (w ++ rest) = some (w ++ rest.takeWhile isWordPart, rest.dropWhile isWordPart) := by
  obtain ⟨⟨c, s, rfl, hdigit⟩, hpart⟩ := h
  have hc := hpart c List.mem_cons_self
  have hs := (isWordStart_iff (not_isBlank_of_isWordPart hc)).mpr ⟨hc, hdigit⟩
  have hrest : ∀ d ∈ s, isWordPart d = true := fun d hd => hpart d (List.mem_cons_of_mem _ hd)
  rw [List.cons_append, word?, if_pos hs, List.takeWhile_append_of_pos hrest,
    List.dropWhile_append_of_pos hrest]
  rfl

theorem unsigned_sound {s n r : List Char} (h : unsigned? s = some (n, r)) :
    s = n ++ r ∧ IsUnsigned n := by
  have hdigits : ∀ t : List Char, AllDigits (t.takeWhile Char.isDigit) :=
    fun t d hd => mem_takeWhile hd
  unfold unsigned? at h
  split at h
  case h_1 rest =>
    split at h
    case h_1 => cases h
    case h_2 hne =>
      cases h
      refine ⟨?_, .fraction hne (hdigits rest)⟩
      rw [List.cons_append, List.takeWhile_append_dropWhile]
  case h_2 =>
    split at h
    case h_1 => cases h
    case h_2 rest hdrop hne =>
      cases h
      refine ⟨?_, .pointed hne (hdigits s) (hdigits rest)⟩
      have hs := List.takeWhile_append_dropWhile (p := Char.isDigit) (l := s)
      rw [List.append_assoc, List.cons_append, List.takeWhile_append_dropWhile, ← hdrop, hs]
    case h_3 hne _ =>
      cases h
      exact ⟨List.takeWhile_append_dropWhile.symm, .whole hne (hdigits s)⟩

theorem unsigned_digits {d : Char} (hd : d.isDigit = true) (s : List Char) :
    unsigned? (d :: s) = match (d :: s).dropWhile Char.isDigit with
      | '.' :: rest => some ((d :: s).takeWhile Char.isDigit ++ '.' :: rest.takeWhile Char.isDigit,
          rest.dropWhile Char.isDigit)
      | rest => some ((d :: s).takeWhile Char.isDigit, rest) := by
  have hne : (d :: s).takeWhile Char.isDigit ≠ [] := by simp [hd]
  rw [unsigned?]
  · split
    case h_1 hnil => exact absurd hnil hne
    case h_2 hdrop _ => simp only [hdrop]
    case h_3 hdot =>
      split
      · rename_i hdrop
        exact absurd hdrop (hdot _)
      · rfl
  · rintro rest he
    cases he
    exact absurd hd (by decide)

/-- A numeral that begins a text is read, perhaps with more behind it. -/
theorem unsigned_longest {n : List Char} (h : IsUnsigned n) (rest : List Char) :
    ∃ n' r, unsigned? (n ++ rest) = some (n', r) ∧ r.length ≤ rest.length := by
  have hle := length_dropWhile_le Char.isDigit rest
  have hstart : ∀ {ds : List Char}, ds ≠ [] → AllDigits ds →
      ∃ d s, ds = d :: s ∧ d.isDigit = true := by
    intro ds hne hd
    obtain ⟨d, s, rfl⟩ := List.exists_cons_of_ne_nil hne
    exact ⟨d, s, rfl, hd d List.mem_cons_self⟩
  cases h with
  | whole hne hd =>
    obtain ⟨d, s, rfl, hdigit⟩ := hstart hne hd
    rw [List.cons_append, unsigned_digits hdigit, ← List.cons_append,
      List.dropWhile_append_of_pos hd]
    split
    · rename_i es hdrop
      have hes := length_dropWhile_le Char.isDigit es
      rw [hdrop, List.length_cons] at hle
      exact ⟨_, _, rfl, by omega⟩
    · exact ⟨_, _, rfl, hle⟩
  | @pointed ds es hne hd he =>
    obtain ⟨d, s, rfl, hdigit⟩ := hstart hne hd
    have hdrop : ((d :: s) ++ ('.' :: es ++ rest)).dropWhile Char.isDigit =
        '.' :: (es ++ rest) := by
      rw [List.dropWhile_append_of_pos hd]
      rfl
    rw [List.append_assoc, List.cons_append, unsigned_digits hdigit, ← List.cons_append, hdrop]
    refine ⟨_, _, rfl, ?_⟩
    rw [List.dropWhile_append_of_pos he]
    exact hle
  | @fraction es hne he =>
    have htake : (es ++ rest).takeWhile Char.isDigit ≠ [] := by
      rw [List.takeWhile_append_of_pos he]
      exact List.append_ne_nil_of_left_ne_nil hne _
    rw [List.cons_append, unsigned?]
    split
    · rename_i hnil
      exact absurd hnil htake
    · refine ⟨_, _, rfl, ?_⟩
      rw [List.dropWhile_append_of_pos he]
      exact hle

theorem numeral_sound {s n r : List Char} (h : numeral? s = some (n, r)) :
    s = n ++ r ∧ IsNumeral n := by
  unfold numeral? at h
  split at h
  · obtain ⟨⟨m, r'⟩, hu, he⟩ := Option.map_eq_some_iff.mp h
    cases he
    obtain ⟨rfl, hm⟩ := unsigned_sound hu
    exact ⟨rfl, .negative hm⟩
  · obtain ⟨rfl, hn⟩ := unsigned_sound h
    exact ⟨rfl, .positive hn⟩

/-- A numeral begins with a digit, a point or a minus sign. -/
theorem numeral_head {n : List Char} (h : IsNumeral n) :
    ∃ c s, n = c :: s ∧ (c.isDigit = true ∨ c = '.' ∨ c = '-') := by
  have hunsigned : ∀ {m : List Char}, IsUnsigned m →
      ∃ c s, m = c :: s ∧ (c.isDigit = true ∨ c = '.') := by
    intro m hm
    cases hm with
    | whole hne hd =>
      obtain ⟨d, s, rfl⟩ := List.exists_cons_of_ne_nil hne
      exact ⟨d, s, rfl, .inl (hd d List.mem_cons_self)⟩
    | pointed hne hd _ =>
      obtain ⟨d, s, rfl⟩ := List.exists_cons_of_ne_nil hne
      exact ⟨d, _, rfl, .inl (hd d List.mem_cons_self)⟩
    | fraction => exact ⟨'.', _, rfl, .inr rfl⟩
  cases h with
  | positive hn =>
    obtain ⟨c, s, rfl, hc⟩ := hunsigned hn
    exact ⟨c, s, rfl, hc.elim .inl fun h => .inr (.inl h)⟩
  | negative => exact ⟨'-', _, rfl, .inr (.inr rfl)⟩

theorem numeral_longest {n : List Char} (h : IsNumeral n) (rest : List Char) :
    ∃ n' r, numeral? (n ++ rest) = some (n', r) ∧ r.length ≤ rest.length := by
  cases h with
  | positive hn =>
    obtain ⟨n', r, hu, hle⟩ := unsigned_longest hn rest
    refine ⟨n', r, ?_, hle⟩
    rw [numeral?]
    · exact hu
    · intro m hm
      rw [hm] at hu
      cases hu
  | negative hn =>
    obtain ⟨n', r, hu, hle⟩ := unsigned_longest hn rest
    exact ⟨_, r, by rw [List.cons_append, numeral?, hu]; rfl, hle⟩

end Tiered.Dot
