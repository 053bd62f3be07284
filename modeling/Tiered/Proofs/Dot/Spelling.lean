import Tiered.Dot.Lexeme.Id
import Tiered.Dot.Printer

/-!
# The spelling of ids

* `Spellable`: the ids that have a spelling, in quotes or as markup;
* `id?_quote`: the spelling of such an id is read back as the id, where the text behind it is
  `Detached`, and in quotes only there (`id?_quote_iff`);
* `id_spellings`: the ids that can be read are those with a spelling.
-/
namespace Tiered.Dot

/-- Between quotes nothing would be misread, or the angle brackets match. -/
def Spellable (id : String) : Prop :=
  quotable false id.toList = true ∨ balanced 0 id.toList = true

instance (id : String) : Decidable (Spellable id) := inferInstanceAs (Decidable (_ ∨ _))

/-! ## What the spelling holds -/

theorem quotable_cons {odd : Bool} {c : Char} (hc : c ≠ '\\') (s : List Char) :
    quotable odd (c :: s) =
      (!(odd && (c = '"' || c = '\n' || c = '\r')) && quotable false s) := by
  rw [quotable, if_neg hc]
  cases odd && (decide (c = '"') || decide (c = '\n') || decide (c = '\r')) <;> simp

theorem quotable_backslash (odd : Bool) (s : List Char) :
    quotable odd ('\\' :: s) = quotable (!odd) s := by
  rw [quotable, if_pos rfl]

theorem quotable_append {odd : Bool} {s t : List Char} (hs : quotable odd s = true)
    (ht : quotable false t = true) : quotable odd (s ++ t) = true := by
  induction s generalizing odd with
  | nil =>
    simp only [quotable, Bool.not_eq_true'] at hs
    rw [hs]
    exact ht
  | cons c s ih =>
    rw [List.cons_append]
    by_cases hc : c = '\\'
    · subst hc
      rw [quotable_backslash] at hs ⊢
      exact ih hs
    · rw [quotable_cons hc, Bool.and_eq_true] at hs ⊢
      exact ⟨hs.1, ih hs.2⟩

theorem quotable_of_not_mem {s : List Char} (h : '\\' ∉ s) : quotable false s = true := by
  induction s with
  | nil => rfl
  | cons c s ih =>
    have hc : c ≠ '\\' := fun hc => h (hc ▸ List.mem_cons_self)
    rw [quotable_cons hc, ih fun hs => h (List.mem_cons_of_mem _ hs)]
    rfl

/-! ## Reading it back -/

theorem quoted_quote (rest : List Char) : quoted? ('"' :: rest) = some ([], rest) := rfl

theorem quoted_escaped (rest : List Char) :
    quoted? ('\\' :: '"' :: rest) = (quoted? rest).map (push '"') := rfl

theorem quoted_pair {c : Char} (h1 : c ≠ '"') (h2 : c ≠ '\n') (h3 : c ≠ '\r') (rest : List Char) :
    quoted? ('\\' :: c :: rest) = (quoted? rest).map fun r => push '\\' (push c r) := by
  rw [quoted?.eq_def]
  split
  case h_7 he => cases he; rfl
  case h_9 hpair _ he =>
    cases he
    exact absurd rfl (hpair _ _ rfl)
  all_goals simp_all

theorem quoted_plain {c : Char} (h1 : c ≠ '"') (h2 : c ≠ '\\') (rest : List Char) :
    quoted? (c :: rest) = (quoted? rest).map (push c) := by
  rw [quoted?.eq_def]
  split
  case h_9 he => cases he; rfl
  all_goals simp_all

theorem escapeQuotes_plain {c : Char} (h : c ≠ '"') (s : List Char) :
    escapeQuotes (c :: s) = c :: escapeQuotes s := by
  simp [escapeQuotes, h]

/-- A backslash that is still to take a character along stands before the text. -/
theorem quoted_escapeQuotes {odd : Bool} {s : List Char} (h : quotable odd s = true)
    (rest : List Char) :
    quoted? ((if odd then ['\\'] else []) ++ (escapeQuotes s ++ '"' :: rest)) =
      some ((if odd then ['\\'] else []) ++ s, rest) := by
  induction s generalizing odd with
  | nil =>
    simp only [quotable, Bool.not_eq_true'] at h
    subst h
    exact quoted_quote rest
  | cons c s ih =>
    by_cases hb : c = '\\'
    · subst hb
      rw [quotable_backslash] at h
      rw [escapeQuotes_plain (by decide)]
      have ih := ih h
      cases odd with
      | false => exact ih
      | true =>
        show quoted? ('\\' :: '\\' :: (escapeQuotes s ++ '"' :: rest)) = _
        rw [quoted_pair (by decide) (by decide) (by decide)]
        exact congrArg _ ih
    · rw [quotable_cons hb, Bool.and_eq_true] at h
      have ih := ih h.2
      simp only [Bool.false_eq_true, if_false, List.nil_append] at ih
      cases odd with
      | true =>
        obtain ⟨⟨h1, h2⟩, h3⟩ : (c ≠ '"' ∧ c ≠ '\n') ∧ c ≠ '\r' := by
          simpa [not_or] using h.1
        rw [escapeQuotes_plain h1]
        show quoted? ('\\' :: c :: (escapeQuotes s ++ '"' :: rest)) = _
        rw [quoted_pair h1 h2 h3, ih]
        rfl
      | false =>
        by_cases hq : c = '"'
        · subst hq
          show quoted? ('\\' :: '"' :: (escapeQuotes s ++ '"' :: rest)) = _
          rw [quoted_escaped, ih]
          rfl
        · rw [escapeQuotes_plain hq]
          show quoted? (c :: (escapeQuotes s ++ '"' :: rest)) = _
          rw [quoted_plain hq hb, ih]
          rfl

theorem markup_balanced {depth : Nat} {s : List Char} (h : balanced depth s = true)
    (rest : List Char) : markup? depth (s ++ '>' :: rest) = some (s, rest) := by
  fun_induction balanced depth s with
  | case1 depth =>
    simp only [beq_iff_eq] at h
    subst h
    rfl
  | case2 depth s ih =>
    rw [List.cons_append, markup?, ih h]
    rfl
  | case3 s => cases h
  | case4 s depth ih =>
    rw [List.cons_append, markup?, ih h]
    rfl
  | case5 depth c s h1 h2 ih =>
    rw [List.cons_append, markup?, ih h]
    · rfl
    · exact h1
    · exact h2

/-- A character that no blank or comment begins with. -/
def stops (c : Char) : Bool := !Text.isBlank c && c != '#' && c != '/'

theorem skipBlanks_nil : skipBlanks [] = .ok [] := by
  rw [skipBlanks.eq_def]

theorem skipBlanks_cons {c : Char} (h1 : c ≠ '#') (h2 : c ≠ '/') (s : List Char) :
    skipBlanks (c :: s) = if Text.isBlank c then skipBlanks s else .ok (c :: s) := by
  rw [skipBlanks.eq_def]
  split
  case h_5 he => cases he; rfl
  all_goals simp_all

theorem skipBlanks_blank {c : Char} (hc : Text.isBlank c = true) (rest : List Char) :
    skipBlanks (c :: rest) = skipBlanks rest := by
  have h1 : c ≠ '#' := by rintro rfl; exact absurd hc (by decide)
  have h2 : c ≠ '/' := by rintro rfl; exact absurd hc (by decide)
  rw [skipBlanks_cons h1 h2, if_pos hc]

theorem skipBlanks_hash (s : List Char) : skipBlanks ('#' :: s) = skipBlanks (afterLine s) := by
  rw [skipBlanks.eq_def]
  rfl

theorem skipBlanks_slashes (s : List Char) :
    skipBlanks ('/' :: '/' :: s) = skipBlanks (afterLine s) := by
  rw [skipBlanks.eq_def]
  rfl

theorem skipBlanks_comment {t r : List Char} (h : afterComment? t = some r) :
    skipBlanks ('/' :: '*' :: t) = skipBlanks r := by
  rw [skipBlanks.eq_def]
  simp only
  split
  · rename_i behind hb
    rw [h] at hb
    cases hb
    rfl
  · rename_i hb
    rw [h] at hb
    cases hb

theorem skipBlanks_stop {c : Char} (h : stops c = true) (s : List Char) :
    skipBlanks (c :: s) = .ok (c :: s) := by
  simp only [stops, Bool.and_eq_true, Bool.not_eq_true', bne_iff_ne] at h
  rw [skipBlanks_cons h.1.2 h.2, h.1.1]
  rfl

theorem skipBlanks_space (s : List Char) : skipBlanks (' ' :: s) = skipBlanks s :=
  skipBlanks_cons (by decide) (by decide) s

/-- What may stand behind a string so that no other is joined to it: its blanks and comments end,
and no `+` follows them. -/
def Detached (rest : List Char) : Prop :=
  ∃ behind, skipBlanks rest = .ok behind ∧ ∀ t, behind ≠ '+' :: t

theorem detached_of_cons {rest t : List Char} {c : Char} (h : skipBlanks rest = .ok (c :: t))
    (hc : c ≠ '+') : Detached rest :=
  ⟨_, h, fun _ he => hc (List.cons.inj he).1⟩

theorem joined_detached {rest : List Char} (h : Detached rest) : joined rest = .ok ([], rest) := by
  obtain ⟨behind, hbehind, hplus⟩ := h
  rw [joined]
  split
  · next he => rw [hbehind] at he; cases he
  · next he =>
    rw [hbehind] at he
    cases he
    exact absurd rfl (hplus _)
  · rfl

theorem quote_of_quotable {id : String} (h : quotable false id.toList = true) :
    quote id = '"' :: escapeQuotes id.toList ++ ['"'] := by
  simp [quote, h]

theorem quote_of_balanced {id : String} (h1 : quotable false id.toList = false)
    (h2 : balanced 0 id.toList = true) : quote id = '<' :: id.toList ++ ['>'] := by
  simp [quote, h1, h2]

/-- What a `+` joins to the spelling is read on behind the id. -/
theorem id?_quote_quoted {id : String} (h : quotable false id.toList = true) (rest : List Char) :
    id? (quote id ++ rest) =
      (joined rest).map fun r => some (String.ofList (id.toList ++ r.1), r.2) := by
  have hread := quoted_escapeQuotes h rest
  simp only [Bool.false_eq_true, if_false, List.nil_append] at hread
  have htext : quote id ++ rest = '"' :: (escapeQuotes id.toList ++ '"' :: rest) := by
    rw [quote_of_quotable h]
    simp
  rw [htext, id?, hread]

/-- The spelling of an id is read back, whatever follows that does not join another string. -/
theorem id?_quote {id : String} (h : Spellable id) {rest : List Char} (hrest : Detached rest) :
    id? (quote id ++ rest) = .ok (some (id, rest)) := by
  cases hq : quotable false id.toList with
  | true =>
    rw [id?_quote_quoted hq, joined_detached hrest]
    simp [Except.map]
  | false =>
    have hb : balanced 0 id.toList = true := by
      rcases h with h | h
      · rw [hq] at h; cases h
      · exact h
    have htext : quote id ++ rest = '<' :: (id.toList ++ '>' :: rest) := by
      rw [quote_of_balanced hq hb]
      simp
    rw [htext, id?, markup_balanced hb]
    simp

/-- A spelling begins with a quote or a bracket. -/
theorem quote_head (id : String) : ∃ c s, quote id = c :: s ∧ (c = '"' ∨ c = '<') := by
  simp only [quote]
  split
  · exact ⟨'<', _, rfl, .inr rfl⟩
  · exact ⟨'"', _, rfl, .inl rfl⟩

theorem skipBlanks_quote (id : String) (rest : List Char) :
    skipBlanks (quote id ++ rest) = .ok (quote id ++ rest) := by
  obtain ⟨c, s, hs, hc | hc⟩ := quote_head id <;>
  · subst hc
    rw [hs]
    exact skipBlanks_stop (by decide) _

theorem word?_quote (id : String) (rest : List Char) : word? (quote id ++ rest) = none := by
  obtain ⟨c, s, hs, hc | hc⟩ := quote_head id <;>
  · subst hc
    rw [hs]
    rfl

/-! ## Only ids with a spelling are read -/

theorem quotable_of_quoted {s v r : List Char} (h : quoted? s = some (v, r)) :
    quotable false v = true := by
  fun_induction quoted? s generalizing v r with
  | case1 => cases h
  | case2 rest => cases h; rfl
  | case3 rest ih =>
    obtain ⟨⟨v', r'⟩, hq, he⟩ := Option.map_eq_some_iff.mp h
    simp only [push, Prod.mk.injEq] at he
    rw [← he.1, quotable_cons (by decide), ih hq]
    rfl
  | case4 rest ih => exact ih h
  | case5 rest ih => exact ih h
  | case6 rest _ ih => exact ih h
  | case7 c rest h1 h2 _ h4 ih =>
    obtain ⟨⟨v', r'⟩, hq, he⟩ := Option.map_eq_some_iff.mp h
    simp only [push, Prod.mk.injEq] at he
    rw [← he.1, quotable_backslash]
    by_cases hc : c = '\\'
    · rw [hc, quotable_backslash]
      exact ih hq
    · have h1 : c ≠ '"' := h1
      have h2 : c ≠ '\n' := h2
      have h4 : c ≠ '\r' := h4
      rw [quotable_cons hc, ih hq]
      simp [h1, h2, h4]
  | case8 => cases h
  | case9 c rest _ _ _ _ h5 h6 h7 ih =>
    obtain ⟨⟨v', r'⟩, hq, he⟩ := Option.map_eq_some_iff.mp h
    simp only [push, Prod.mk.injEq] at he
    have hc : c ≠ '\\' := by
      rintro rfl
      cases rest with
      | nil => exact h7 rfl rfl
      | cons d rest => exact h6 d rest rfl rfl
    rw [← he.1, quotable_cons hc, ih hq]
    rfl

theorem balanced_of_markup {depth : Nat} {s v r : List Char}
    (h : markup? depth s = some (v, r)) : balanced depth v = true := by
  fun_induction markup? depth s generalizing v r with
  | case1 => cases h
  | case2 depth rest ih =>
    obtain ⟨⟨v', r'⟩, hm, he⟩ := Option.map_eq_some_iff.mp h
    simp only [push, Prod.mk.injEq] at he
    rw [← he.1, balanced]
    exact ih hm
  | case3 => cases h; rfl
  | case4 rest depth ih =>
    obtain ⟨⟨v', r'⟩, hm, he⟩ := Option.map_eq_some_iff.mp h
    simp only [push, Prod.mk.injEq] at he
    rw [← he.1, balanced]
    exact ih hm
  | case5 depth c rest h1 h2 ih =>
    obtain ⟨⟨v', r'⟩, hm, he⟩ := Option.map_eq_some_iff.mp h
    simp only [push, Prod.mk.injEq] at he
    rw [← he.1, balanced]
    · exact ih hm
    · exact h1
    · exact h2

theorem quotable_of_joined {s v r : List Char} (h : joined s = .ok (v, r)) :
    quotable false v = true := by
  fun_induction joined s generalizing v r with
  | case1 => cases h
  | case2 => cases h
  | case3 => cases h
  | case4 s t hs u ht value behind hu ih =>
    obtain ⟨⟨v', r'⟩, hj, he⟩ := map_eq_ok.mp h
    simp only [Prod.mk.injEq] at he
    rw [← he.1]
    exact quotable_append (quotable_of_quoted hu) (ih hj)
  | case5 => cases h
  | case6 => cases h; rfl

theorem backslash_not_mem_takeWhile {p : Char → Bool} (hp : p '\\' = false) (s : List Char) :
    '\\' ∉ s.takeWhile p := by
  intro h
  have := List.all_eq_true.mp List.all_takeWhile _ h
  rw [hp] at this
  cases this

theorem backslash_not_mem_unsigned {s v r : List Char} (h : unsigned? s = some (v, r)) :
    '\\' ∉ v := by
  have hdigits := backslash_not_mem_takeWhile (p := Char.isDigit) (by decide)
  unfold unsigned? at h
  split at h
  case h_1 rest =>
    split at h
    case h_1 => cases h
    case h_2 =>
      cases h
      simpa using hdigits rest
  case h_2 =>
    split at h
    case h_1 => cases h
    case h_2 =>
      cases h
      simpa using ⟨hdigits _, hdigits _⟩
    case h_3 =>
      cases h
      exact hdigits _

theorem backslash_not_mem_numeral {s v r : List Char} (h : numeral? s = some (v, r)) :
    '\\' ∉ v := by
  unfold numeral? at h
  split at h
  · obtain ⟨⟨v', r'⟩, hu, he⟩ := Option.map_eq_some_iff.mp h
    cases he
    simpa using backslash_not_mem_unsigned hu
  · exact backslash_not_mem_unsigned h

theorem backslash_not_mem_word {s w r : List Char} (h : word? s = some (w, r)) : '\\' ∉ w := by
  cases s with
  | nil => cases h
  | cons c rest =>
    by_cases hc : isWordStart c
    · simp only [word?, hc, if_true, Option.some.injEq, Prod.mk.injEq] at h
      rw [← h.1]
      have hne : '\\' ≠ c := by
        rintro rfl
        exact absurd hc (by decide)
      simpa [hne] using backslash_not_mem_takeWhile (p := isWordPart) (by decide) rest
    · simp only [word?, hc] at h
      cases h

/-- Every id that is read has a spelling. -/
theorem spellable_of_id? {s : List Char} {v : String} {r : List Char}
    (h : id? s = .ok (some (v, r))) : Spellable v := by
  unfold id? at h
  split at h
  case h_1 t =>
    split at h
    case h_1 => cases h
    case h_2 value behind hq =>
      obtain ⟨⟨v', r'⟩, hj, he⟩ := map_eq_ok.mp h
      simp only [Option.some.injEq, Prod.mk.injEq] at he
      rw [← he.1]
      refine .inl ?_
      rw [String.toList_ofList]
      exact quotable_append (quotable_of_quoted hq) (quotable_of_joined hj)
  case h_2 t =>
    split at h
    case h_1 => cases h
    case h_2 value behind hm =>
      cases h
      refine .inr ?_
      rw [String.toList_ofList]
      exact balanced_of_markup hm
  case h_3 =>
    split at h
    case h_1 value behind hn =>
      cases h
      refine .inl ?_
      rw [String.toList_ofList]
      exact quotable_of_not_mem (backslash_not_mem_numeral hn)
    case h_2 =>
      split at h
      case h_1 => cases h
      case h_2 word behind hw =>
        split at h
        · cases h
        · cases h
          refine .inl ?_
          rw [String.toList_ofList]
          exact quotable_of_not_mem (backslash_not_mem_word hw)

/-! ## The ids there are -/

theorem detached_of_joined {rest v : List Char} (h : joined rest = .ok (v, rest)) :
    Detached rest := by
  rw [joined] at h
  split at h
  · cases h
  · next t ht =>
    -- A string joined to this one would have been consumed with its `+`.
    exfalso
    split at h
    · cases h
    · next u hu =>
      split at h
      · cases h
      · next value behind hq =>
        obtain ⟨⟨v', r'⟩, hj, he⟩ := map_eq_ok.mp h
        obtain ⟨-, rfl⟩ := Prod.mk.inj he
        have h1 := length_skipBlanks ht
        have h2 := length_skipBlanks hu
        have h3 := length_quoted hq
        have h4 := length_joined hj
        simp only [List.length_cons] at h1 h2
        omega
    · cases h
  · next behind hplus hbehind =>
    exact ⟨behind, hbehind, hplus⟩

/-- In quotes an id is read back alone nowhere else. -/
theorem id?_quote_iff {id : String} (h : quotable false id.toList = true) {rest : List Char} :
    id? (quote id ++ rest) = .ok (some (id, rest)) ↔ Detached rest := by
  refine ⟨fun hread => ?_, id?_quote (.inl h)⟩
  rw [id?_quote_quoted h] at hread
  obtain ⟨⟨v, r⟩, hj, he⟩ := map_eq_ok.mp hread
  simp only [Option.some.injEq, Prod.mk.injEq] at he
  obtain ⟨-, rfl⟩ := he
  exact detached_of_joined hj

/-- The ids that can be read are those with a spelling, and the spelling of such an id is read
back as the id, to its last character and no further, before any text that does not join another
string to it. -/
theorem id_spellings (id : String) :
    ((∃ text rest, id? text = .ok (some (id, rest))) ↔ Spellable id) ∧
      (Spellable id → ∀ rest, Detached rest →
        id? (quote id ++ rest) = .ok (some (id, rest))) := by
  refine ⟨⟨?_, ?_⟩, fun h rest hrest => id?_quote h hrest⟩
  · rintro ⟨text, rest, h⟩
    exact spellable_of_id? h
  · intro h
    have hend : Detached [] := ⟨[], skipBlanks_nil, by simp⟩
    exact ⟨quote id ++ [], [], id?_quote h hend⟩

/-- A path, whose quotes are escaped and whose backslashes are not, before a comment that holds
a `+`, and an id that only markup can spell, as it ends in a backslash. -/
theorem id_spellings_path :
    (Spellable "C:\\my \"docs\"" ∧ Detached " /* + */ -> b".toList ∧
      id? (quote "C:\\my \"docs\"" ++ " /* + */ -> b".toList) =
        .ok (some ("C:\\my \"docs\"", " /* + */ -> b".toList))) ∧
    Spellable "<b>C:\\</b>\\" ∧ Detached [';'] ∧
      id? (quote "<b>C:\\</b>\\" ++ [';']) = .ok (some ("<b>C:\\</b>\\", [';'])) := by
  have hquoted : Spellable "C:\\my \"docs\"" := by decide
  have hmarkup : Spellable "<b>C:\\</b>\\" := by decide
  have hcomment : afterComment? " + */ -> b".toList = some " -> b".toList := by decide
  have harrow : skipBlanks " /* + */ -> b".toList = .ok "-> b".toList :=
    (skipBlanks_space _).trans
      ((skipBlanks_comment hcomment).trans ((skipBlanks_space _).trans (skipBlanks_stop rfl _)))
  have hfirst : Detached " /* + */ -> b".toList := ⟨_, harrow, by simp⟩
  have hsecond : Detached [';'] := detached_of_cons (skipBlanks_stop rfl []) (by decide)
  exact ⟨⟨hquoted, hfirst, (id_spellings _).2 hquoted _ hfirst⟩,
    hmarkup, hsecond, (id_spellings _).2 hmarkup _ hsecond⟩

end Tiered.Dot
