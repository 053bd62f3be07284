import Tiered.Dot.Parser.Statement
import Tiered.Proofs.Dot.Lexeme

/-!
# Reading tokens

* `token?`: the first token of a text, put together from the readers of the single kinds;
* `longest_iff_token?`: it is the longest that can stand there;
* `Consumes`: a text begins with given tokens, and a given text is behind them, whatever it is;
* `lexes_nil_iff`, `lexes_cons_iff`: the tokens of a text are found by skipping blanks and reading
  the first token over and over.
-/
namespace Tiered.Dot

/-! ## The first token of a text -/

/-- The first token of a text that begins with none that says nothing. -/
def token? : List Char → Option (Token × List Char)
  | [] => none
  | '"' :: s => (quoted? s).map fun r => (.quoted r.1, r.2)
  | '<' :: s => (markup? 0 s).map fun r => (.markup r.1, r.2)
  | c :: s =>
    if c ∈ symbols then some (.symbol c, s)
    else
      match edgeOp? (c :: s) with
      | some r => some (.edgeOp, r)
      | none =>
        match numeral? (c :: s) with
        | some (n, r) => some (.numeral n, r)
        | none => (word? (c :: s)).map fun r => (.word r.1, r.2)

/-- Characters that begin tokens other than strings and markup. -/
theorem token?_cons {c : Char} (h1 : c ≠ '"') (h2 : c ≠ '<') (s : List Char) :
    token? (c :: s) =
      if c ∈ symbols then some (.symbol c, s)
      else
        match edgeOp? (c :: s) with
        | some r => some (.edgeOp, r)
        | none =>
          match numeral? (c :: s) with
          | some (n, r) => some (.numeral n, r)
          | none => (word? (c :: s)).map fun r => (.word r.1, r.2) := by
  rw [token?]
  · exact h1
  · exact h2

theorem token?_symbol {c : Char} (h : c ∈ symbols) (s : List Char) :
    token? (c :: s) = some (.symbol c, s) := by
  have h1 : c ≠ '"' := by rintro rfl; exact absurd h (by decide)
  have h2 : c ≠ '<' := by rintro rfl; exact absurd h (by decide)
  rw [token?_cons h1 h2, if_pos h]

theorem edgeOp?_eq_some {s r : List Char} (h : edgeOp? s = some r) :
    s = '-' :: '>' :: r ∨ s = '-' :: '-' :: r := by
  unfold edgeOp? at h
  split at h
  · cases h; exact .inl rfl
  · cases h; exact .inr rfl
  · cases h

/-- The reader that a token came from. -/
def ReadBy (u : List Char) : Token → List Char → Prop
  | .quoted v, r => ∃ s, u = '"' :: s ∧ quoted? s = some (v, r)
  | .markup v, r => ∃ s, u = '<' :: s ∧ markup? 0 s = some (v, r)
  | .symbol c, r => u = c :: r ∧ c ∈ symbols
  | .edgeOp, r => edgeOp? u = some r
  | .numeral n, r => numeral? u = some (n, r)
  | .word w, r => word? u = some (w, r)

theorem readBy_of_token? {u r : List Char} {t : Token} (h : token? u = some (t, r)) :
    ReadBy u t r := by
  cases u with
  | nil => cases h
  | cons c s =>
    by_cases h1 : c = '"'
    · subst h1
      obtain ⟨⟨v, r'⟩, hq, he⟩ := Option.map_eq_some_iff.mp h
      cases he
      exact ⟨s, rfl, hq⟩
    by_cases h2 : c = '<'
    · subst h2
      obtain ⟨⟨v, r'⟩, hm, he⟩ := Option.map_eq_some_iff.mp h
      cases he
      exact ⟨s, rfl, hm⟩
    rw [token?_cons h1 h2] at h
    split at h
    · rename_i hsymbol
      cases h
      exact ⟨rfl, hsymbol⟩
    split at h
    · rename_i hop
      cases h
      exact hop
    split at h
    · rename_i hn
      cases h
      exact hn
    · obtain ⟨⟨w, r'⟩, hw, he⟩ := Option.map_eq_some_iff.mp h
      cases he
      exact hw

theorem token_sound {c : Char} {s r : List Char} {t : Token} (hc : Text.isBlank c = false)
    (h : token? (c :: s) = some (t, r)) : ∃ p, c :: s = p ++ r ∧ Spells t p := by
  have hread := readBy_of_token? h
  cases t with
  | quoted v =>
    obtain ⟨s', hs', hq⟩ := hread
    obtain ⟨body, rfl, hbody⟩ := quoted_iff.mp hq
    exact ⟨_, by simpa using hs', .quoted hbody⟩
  | markup v =>
    obtain ⟨s', hs', hm⟩ := hread
    obtain ⟨rfl, hv⟩ := markup_iff.mp hm
    exact ⟨_, by simpa using hs', .markup hv⟩
  | symbol d => exact ⟨[d], hread.1, .symbol hread.2⟩
  | edgeOp =>
    rcases edgeOp?_eq_some hread with he | he
    · exact ⟨_, he, .arrow⟩
    · exact ⟨_, he, .line⟩
  | numeral n =>
    obtain ⟨he, hnumeral⟩ := numeral_sound hread
    exact ⟨_, he, .numeral hnumeral⟩
  | word w =>
    obtain ⟨he, hword⟩ := word_sound hc hread
    exact ⟨_, he, .word hword⟩

theorem stops_of_isWordPart {c : Char} (h : isWordPart c = true) : stops c = true := by
  have h1 : c ≠ '#' := by rintro rfl; exact absurd h (by decide)
  have h2 : c ≠ '/' := by rintro rfl; exact absurd h (by decide)
  simp [stops, not_isBlank_of_isWordPart h, h1, h2]

theorem isWordPart_of_isDigit {c : Char} (h : c.isDigit = true) : isWordPart c = true := by
  simp [isWordPart, Char.isAlphanum, h]

/-- No token begins like a gap. -/
theorem spells_head {t : Token} {p : List Char} (h : Spells t p) :
    ∃ c s, p = c :: s ∧ stops c = true := by
  cases h with
  | word hw =>
    obtain ⟨⟨c, s, rfl, -⟩, hpart⟩ := hw
    exact ⟨c, s, rfl, stops_of_isWordPart (hpart c List.mem_cons_self)⟩
  | numeral hn =>
    obtain ⟨c, s, rfl, hc | rfl | rfl⟩ := numeral_head hn
    · exact ⟨c, s, rfl, stops_of_isWordPart (isWordPart_of_isDigit hc)⟩
    · exact ⟨_, _, rfl, by decide⟩
    · exact ⟨_, _, rfl, by decide⟩
  | @symbol c hc =>
    refine ⟨c, [], rfl, ?_⟩
    have hall : symbols.all stops = true := by decide
    exact List.all_eq_true.mp hall c hc
  | quoted | markup | arrow | line => exact ⟨_, _, rfl, by decide⟩

theorem gap_head {p : List Char} (h : Gap p) : ∃ c s, p = c :: s ∧ stops c = false := by
  cases h with
  | blank hc => exact ⟨_, _, rfl, by simp [stops, hc]⟩
  | hash | slashes | comment => exact ⟨_, _, rfl, by decide⟩

theorem not_mem_symbols_of_isWordPart {c : Char} (h : isWordPart c = true) : c ∉ symbols := by
  have hall : symbols.all (!isWordPart ·) = true := by decide
  intro hc
  have hnot := List.all_eq_true.mp hall c hc
  rw [h] at hnot
  cases hnot

theorem numeral?_of_isWordStart {c : Char} (hc : isWordStart c = true) (s : List Char) :
    numeral? (c :: s) = none := by
  cases hn : numeral? (c :: s) with
  | none => rfl
  | some e =>
    obtain ⟨he, hnumeral⟩ := numeral_sound hn
    obtain ⟨d, n, hd, hkind⟩ := numeral_head hnumeral
    rw [hd, List.cons_append, List.cons.injEq] at he
    rw [he.1] at hc
    rcases hkind with hkind | rfl | rfl
    · rw [not_wordStart_of_isDigit hkind] at hc
      cases hc
    · exact absurd hc (by decide)
    · exact absurd hc (by decide)

theorem token?_of_isWordStart {c : Char} (hc : isWordStart c = true) (s : List Char) :
    token? (c :: s) = (word? (c :: s)).map fun r => (.word r.1, r.2) := by
  have hne : ∀ d : Char, isWordStart d = false → c ≠ d := by
    rintro d hd rfl
    rw [hd] at hc
    cases hc
  have hsymbol : c ∉ symbols := by
    have hall : symbols.all (!isWordStart ·) = true := by decide
    intro hin
    have hnot := List.all_eq_true.mp hall c hin
    rw [hc] at hnot
    cases hnot
  have hop : edgeOp? (c :: s) = none := by
    cases ho : edgeOp? (c :: s) with
    | none => rfl
    | some r =>
      rcases edgeOp?_eq_some ho with he | he
      · exact absurd (List.cons.inj he).1 (hne _ (by decide))
      · exact absurd (List.cons.inj he).1 (hne _ (by decide))
  rw [token?_cons (hne _ (by decide)) (hne _ (by decide)), if_neg hsymbol, hop,
    numeral?_of_isWordStart hc]

theorem edgeOp?_of_numeral? {s n r : List Char} (h : numeral? s = some (n, r)) :
    edgeOp? s = none := by
  cases ho : edgeOp? s with
  | none => rfl
  | some r' =>
    rcases edgeOp?_eq_some ho with rfl | rfl
    · cases h
    · cases h

theorem token?_of_numeral? {c : Char} {s n r : List Char}
    (hc : c.isDigit = true ∨ c = '.' ∨ c = '-') (h : numeral? (c :: s) = some (n, r)) :
    token? (c :: s) = some (.numeral n, r) := by
  have hne : c ≠ '"' ∧ c ≠ '<' ∧ c ∉ symbols := by
    rcases hc with hc | rfl | rfl
    · have hpart := isWordPart_of_isDigit hc
      refine ⟨?_, ?_, not_mem_symbols_of_isWordPart hpart⟩ <;> rintro rfl <;>
        exact absurd hpart (by decide)
    · decide
    · decide
  rw [token?_cons hne.1 hne.2.1, if_neg hne.2.2, edgeOp?_of_numeral? h, h]

/-- Of a text that a token begins, the first token is that one, or one of its kind that is
longer. -/
theorem token_longest {t : Token} {p : List Char} (h : Spells t p) (rest : List Char) :
    ∃ t' r, token? (p ++ rest) = some (t', r) ∧ r.length ≤ rest.length ∧
      (r.length = rest.length → t' = t) := by
  cases h with
  | @quoted s v hs =>
    refine ⟨.quoted v, rest, ?_, Nat.le_refl _, fun _ => rfl⟩
    have hread : quoted? (s ++ '"' :: rest) = some (v, rest) := quoted_iff.mpr ⟨s, rfl, hs⟩
    simp [token?, hread]
  | @markup s hs =>
    refine ⟨.markup s, rest, ?_, Nat.le_refl _, fun _ => rfl⟩
    have hread : markup? 0 (s ++ '>' :: rest) = some (s, rest) := markup_iff.mpr ⟨rfl, hs⟩
    simp [token?, hread]
  | symbol hc => exact ⟨_, rest, token?_symbol hc rest, Nat.le_refl _, fun _ => rfl⟩
  | arrow | line => exact ⟨.edgeOp, rest, rfl, Nat.le_refl _, fun _ => rfl⟩
  | @numeral n hn =>
    obtain ⟨n', r, hread, hle⟩ := numeral_longest hn rest
    obtain ⟨c, s, rfl, hc⟩ := numeral_head hn
    rw [List.cons_append] at hread ⊢
    refine ⟨.numeral n', r, token?_of_numeral? hc hread, hle, fun hlength => ?_⟩
    have he := (numeral_sound hread).1
    rw [← List.cons_append] at he
    rw [List.append_inj_left' he hlength.symm]
  | @word w hw =>
    have hread := word_longest hw rest
    have hle := length_dropWhile_le isWordPart rest
    obtain ⟨⟨c, s, rfl, hdigit⟩, hpart⟩ := hw
    have hc := hpart c List.mem_cons_self
    have hstart := (isWordStart_iff (not_isBlank_of_isWordPart hc)).mpr ⟨hc, hdigit⟩
    rw [List.cons_append] at hread ⊢
    refine ⟨.word (c :: s ++ rest.takeWhile isWordPart), _, ?_, hle, ?_⟩
    · rw [token?_of_isWordStart hstart, hread]
      rfl
    · intro hlength
      have hsplit := List.takeWhile_append_dropWhile (p := isWordPart) (l := rest)
      have hnil : rest.takeWhile isWordPart = [] := by
        have hsum := congrArg List.length hsplit
        rw [List.length_append, hlength] at hsum
        exact List.eq_nil_of_length_eq_zero (by omega)
      simp [hnil]

/-- The first token of a text is the longest. -/
theorem longest_iff_token? {t : Token} {p : List Char} (h : Spells t p) (rest : List Char) :
    Longest p rest ↔ token? (p ++ rest) = some (t, rest) := by
  obtain ⟨c, s, hp, hstops⟩ := spells_head h
  have hblank : Text.isBlank c = false := by
    simp only [stops, Bool.and_eq_true, Bool.not_eq_true'] at hstops
    exact hstops.1.1
  obtain ⟨t', r, hread, hle, hsame⟩ := token_longest h rest
  constructor
  · intro hlongest
    rw [hp, List.cons_append] at hread
    obtain ⟨p', he, hp'⟩ := token_sound hblank hread
    rw [← List.cons_append, ← hp] at he
    have hlength := hlongest p' r he.symm (.inr ⟨t', hp'⟩)
    have hsum := congrArg List.length he
    simp only [List.length_append] at hsum
    have hr : r = rest := (List.append_inj_right' he (by omega)).symm
    rw [hp, List.cons_append, hread, hsame (by rw [hr]), hr]
  · intro hfirst q r' he hq
    have hsum := congrArg List.length he
    simp only [List.length_append] at hsum
    rcases hq with hgap | ⟨u, hu⟩
    · obtain ⟨d, q', rfl, hd⟩ := gap_head hgap
      rw [hp, List.cons_append, List.cons_append, List.cons.injEq] at he
      rw [he.1, hstops] at hd
      cases hd
    · obtain ⟨u', r'', hread', hle', -⟩ := token_longest hu r'
      rw [he, hfirst] at hread'
      cases hread'
      omega

/-! ## Readers by the first token -/

theorem edgeOp?_iff {u r : List Char} : edgeOp? u = some r ↔ token? u = some (.edgeOp, r) := by
  constructor
  · intro h
    rcases edgeOp?_eq_some h with rfl | rfl
    · rfl
    · rfl
  · exact fun h => readBy_of_token? h

theorem word?_iff {u w r : List Char} : word? u = some (w, r) ↔ token? u = some (.word w, r) := by
  constructor
  · intro h
    cases u with
    | nil => cases h
    | cons c s =>
      by_cases hc : isWordStart c
      · rw [token?_of_isWordStart hc, h]
        rfl
      · simp [word?, hc] at h
  · exact fun h => readBy_of_token? h

theorem id?_cons {c : Char} (h1 : c ≠ '"') (h2 : c ≠ '<') (s : List Char) :
    id? (c :: s) = match numeral? (c :: s) with
      | some (n, r) => .ok (some (String.ofList n, r))
      | none => match word? (c :: s) with
        | none => .ok none
        | some (w, r) => .ok (if (keyword? w).isSome then none else some (String.ofList w, r)) := by
  rw [id?.eq_def]
  split
  · rename_i he
    exact absurd (List.cons.inj he).1 h1
  · rename_i he
    exact absurd (List.cons.inj he).1 h2
  · rfl

theorem id?_symbol {c : Char} (hc : c ∈ symbols) (r : List Char) : id? (c :: r) = .ok none := by
  simp only [symbols, List.mem_cons, List.not_mem_nil, or_false] at hc
  rcases hc with rfl | rfl | rfl | rfl | rfl | rfl | rfl | rfl | rfl <;> rfl

/-- The id that begins with a token, and the text behind it. -/
def idFrom (r : List Char) : Token → Except Failure (Option (Taken String))
  | .quoted v => (joined r).map fun q => some (String.ofList (v ++ q.1), q.2)
  | .markup v => .ok (some (String.ofList v, r))
  | .numeral n => .ok (some (String.ofList n, r))
  | .word w => .ok (if (keyword? w).isSome then none else some (String.ofList w, r))
  | .symbol _ => .ok none
  | .edgeOp => .ok none

theorem id?_of_token? {u r : List Char} {t : Token} (h : token? u = some (t, r)) :
    id? u = idFrom r t := by
  have hread := readBy_of_token? h
  cases t with
  | quoted v =>
    obtain ⟨s, rfl, hq⟩ := hread
    simp only [id?, hq, idFrom]
  | markup v =>
    obtain ⟨s, rfl, hm⟩ := hread
    simp only [id?, hm, idFrom]
  | symbol d =>
    obtain ⟨rfl, hd⟩ := hread
    exact id?_symbol hd r
  | edgeOp =>
    rcases edgeOp?_eq_some hread with rfl | rfl
    · rfl
    · rfl
  | numeral n =>
    have hnumeral : numeral? u = some (n, r) := hread
    obtain ⟨rfl, hn⟩ := numeral_sound hnumeral
    obtain ⟨c, s, rfl, hc⟩ := numeral_head hn
    rw [List.cons_append] at hnumeral ⊢
    rw [id?_cons, hnumeral, idFrom]
    all_goals
      rintro rfl
      revert hc
      decide
  | word w =>
    have hword : word? u = some (w, r) := hread
    cases u with
    | nil => cases hword
    | cons c s =>
      have hc : isWordStart c = true := by
        by_cases hc : isWordStart c
        · exact hc
        · simp [word?, hc] at hword
      rw [id?_cons, numeral?_of_isWordStart hc, hword, idFrom]
      all_goals
        rintro rfl
        exact absurd hc (by decide)

theorem token?_of_id? {u : List Char} {a : String × List Char} (h : id? u = .ok (some a)) :
    ∃ t r, token? u = some (t, r) := by
  cases ht : token? u with
  | some t => exact ⟨t.1, t.2, rfl⟩
  | none =>
    cases u with
    | nil => cases h
    | cons c s =>
      by_cases h1 : c = '"'
      · subst h1
        have hq : quoted? s = none := by simpa [token?] using ht
        simp [id?, hq] at h
      by_cases h2 : c = '<'
      · subst h2
        have hm : markup? 0 s = none := by simpa [token?] using ht
        simp [id?, hm] at h
      rw [token?_cons h1 h2] at ht
      rw [id?_cons h1 h2] at h
      split at ht
      · cases ht
      split at ht
      · cases ht
      split at ht
      · cases ht
      · rename_i hnumeral
        rw [hnumeral, Option.map_eq_none_iff.mp ht] at h
        cases h

/-! ## Gaps are the longest there are -/

theorem gap_of_head {c : Char} {q r s : List Char} (hc : stops c = false) (he : q ++ r = c :: s)
    (hq : Gap q ∨ ∃ t, Spells t q) : Gap q := by
  rcases hq with hgap | ⟨t, ht⟩
  · exact hgap
  · obtain ⟨d, q', rfl, hd⟩ := spells_head ht
    rw [List.cons_append, List.cons.injEq] at he
    rw [he.1, hc] at hd
    cases hd

theorem longest_blank {c : Char} (hc : Text.isBlank c = true) (rest : List Char) :
    Longest [c] rest := by
  intro q r he hq
  cases gap_of_head (by simp [stops, hc]) he hq with
  | blank => exact Nat.le_refl _
  | hash | slashes | comment =>
    rw [List.cons_append, List.singleton_append, List.cons.injEq] at he
    rw [← he.1] at hc
    exact absurd hc (by decide)

/-- The rest of a line holds as much as it can. -/
theorem length_le_of_line {s s' r rest : List Char} (he : s' ++ r = s ++ rest) (hs' : '\n' ∉ s')
    (hrest : ∀ c ∈ rest.head?, c = '\n') : s'.length ≤ s.length := by
  rcases List.append_eq_append_iff.mp he with ⟨as, rfl, -⟩ | ⟨bs, rfl, rfl⟩
  · rw [List.length_append]
    exact Nat.le_add_right _ _
  · cases bs with
    | nil => exact Nat.le_of_eq (by rw [List.append_nil])
    | cons b bs =>
      have hb := hrest b rfl
      subst hb
      exact absurd (List.mem_append_right s List.mem_cons_self) hs'

theorem longest_hash {s rest : List Char} (hrest : ∀ c ∈ rest.head?, c = '\n') :
    Longest ('#' :: s) rest := by
  intro q r he hq
  cases gap_of_head (by decide) he hq with
  | blank hc =>
    cases he
    exact absurd hc (by decide)
  | hash hs' =>
    have hle := length_le_of_line (List.cons.inj he).2 hs' hrest
    exact Nat.succ_le_succ hle
  | slashes | comment => cases he

theorem longest_slashes {s rest : List Char} (hrest : ∀ c ∈ rest.head?, c = '\n') :
    Longest ('/' :: '/' :: s) rest := by
  intro q r he hq
  cases gap_of_head (by decide) he hq with
  | blank hc =>
    cases he
    exact absurd hc (by decide)
  | slashes hs' =>
    have hle := length_le_of_line (List.cons.inj (List.cons.inj he).2).2 hs' hrest
    exact Nat.succ_le_succ (Nat.succ_le_succ hle)
  | hash | comment => cases he

theorem longest_comment {s rest : List Char} (hs : ¬ ['*', '/'] <:+: s) :
    Longest ('/' :: '*' :: (s ++ ['*', '/'])) rest := by
  intro q r he hq
  cases gap_of_head (by decide) he hq with
  | blank hc =>
    cases he
    exact absurd hc (by decide)
  | hash | slashes => cases he
  | @comment s' hs' =>
    simp only [List.append_assoc, List.cons_append, List.nil_append, List.cons.injEq,
      true_and] at he
    have hend : afterComment? (s ++ '*' :: '/' :: rest) = some rest :=
      afterComment_iff.mpr ⟨s, rfl, hs⟩
    have hend' : afterComment? (s ++ '*' :: '/' :: rest) = some r :=
      afterComment_iff.mpr ⟨s', he.symm, hs'⟩
    have hr : rest = r := Option.some.inj (hend.symm.trans hend')
    have hsum := congrArg List.length he
    simp only [List.length_append, List.length_cons, hr] at hsum ⊢
    omega

/-- A comment to the end of its line ends there. -/
theorem head_of_longest_line {p rest : List Char}
    (hline : ∀ c, c ≠ '\n' → Gap (p ++ [c])) (h : Longest p rest) :
    ∀ c ∈ rest.head?, c = '\n' := by
  intro c hc
  by_cases hne : c = '\n'
  · exact hne
  cases rest with
  | nil => cases hc
  | cons d rest =>
    cases hc
    have hle := h (p ++ [c]) rest (by simp) (.inl (hline c hne))
    rw [List.length_append, List.length_singleton] at hle
    omega

theorem afterLine_append {s rest : List Char} (hs : '\n' ∉ s)
    (hrest : ∀ c ∈ rest.head?, c = '\n') : afterLine (s ++ rest) = rest := by
  rw [afterLine, List.dropWhile_append_of_pos]
  · cases rest with
    | nil => rfl
    | cons c rest =>
      have hc := hrest c rfl
      subst hc
      rfl
  · intro c hc
    have hne : c ≠ '\n' := fun he => hs (he ▸ hc)
    simp [hne]

theorem skipBlanks_gap {p rest : List Char} (hp : Gap p) (h : Longest p rest) :
    skipBlanks (p ++ rest) = skipBlanks rest := by
  cases hp with
  | blank hc => exact skipBlanks_blank hc rest
  | @hash s hs =>
    have hrest := head_of_longest_line (fun c hc => .hash (s := s ++ [c]) (by simp [hs, hc.symm])) h
    rw [List.cons_append, skipBlanks_hash, afterLine_append hs hrest]
  | @slashes s hs =>
    have hrest :=
      head_of_longest_line (fun c hc => .slashes (s := s ++ [c]) (by simp [hs, hc.symm])) h
    rw [List.cons_append, List.cons_append, skipBlanks_slashes, afterLine_append hs hrest]
  | @comment s hs =>
    apply skipBlanks_comment
    exact afterComment_iff.mpr ⟨s, by simp, hs⟩

/-! ## The tokens of a text -/

theorem takeWhile_append_afterLine (s : List Char) :
    s.takeWhile (· ≠ '\n') ++ afterLine s = s := List.takeWhile_append_dropWhile

theorem lineFeed_not_mem_takeWhile (s : List Char) : '\n' ∉ s.takeWhile (· ≠ '\n') := by
  intro h
  have := mem_takeWhile h
  simp at this

theorem head_afterLine (s : List Char) : ∀ c ∈ (afterLine s).head?, c = '\n' := by
  intro c hc
  have hhead := List.head?_dropWhile_not (fun d => decide (d ≠ '\n')) s
  rw [← afterLine, Option.mem_def.mp hc] at hhead
  simpa using hhead

theorem head_of_skipBlanks {s u : List Char} {c : Char} (h : skipBlanks s = .ok (c :: u)) :
    Text.isBlank c = false := by
  fun_induction skipBlanks s with
  | case1 => cases h
  | case2 _ ih | case3 _ ih | case4 _ _ _ ih | case6 _ _ _ _ _ _ ih => exact ih h
  | case5 => cases h
  | case7 d rest _ _ _ hd =>
    cases h
    exact Bool.not_eq_true _ ▸ hd

/-- A text begins with tokens, from left to right the longest there are, and `r` is behind them;
gaps may stand between them, before them and behind them. -/
inductive Consumes : List Token → List Char → List Char → Prop
  | refl {s} : Consumes [] s s
  | gap {us p rest r} : Gap p → Longest p rest → Consumes us rest r → Consumes us (p ++ rest) r
  | token {k us p rest r} : Spells k p → Longest p rest → Consumes us rest r →
      Consumes (k :: us) (p ++ rest) r

theorem Consumes.lexes {us ts : List Token} {s r : List Char} (h : Consumes us s r)
    (hr : Lexes r ts) : Lexes s (us ++ ts) := by
  induction h with
  | refl => exact hr
  | gap hp hlongest _ ih => exact .gap hp hlongest (ih hr)
  | token hk hlongest _ ih => exact .token hk hlongest (ih hr)

/-- Blanks are left out up to where something else begins, or a comment that is not closed. -/
theorem Consumes.of_skipBlanks {s r : List Char}
    (h : Dot.skipBlanks s = .ok r ∨ ∃ fault, Dot.skipBlanks s = .error ⟨fault, r⟩) :
    Consumes [] s r := by
  fun_induction Dot.skipBlanks s with
  | case1 =>
    simp only [Except.ok.injEq, reduceCtorEq, exists_false, or_false] at h
    exact h ▸ .refl
  | case2 rest ih =>
    have hgap := Consumes.gap (.hash (lineFeed_not_mem_takeWhile rest))
      (longest_hash (head_afterLine rest)) (ih h)
    rwa [List.cons_append, takeWhile_append_afterLine] at hgap
  | case3 rest ih =>
    have hgap := Consumes.gap (.slashes (lineFeed_not_mem_takeWhile rest))
      (longest_slashes (head_afterLine rest)) (ih h)
    rwa [List.cons_append, List.cons_append, takeWhile_append_afterLine] at hgap
  | case4 rest behind hb ih =>
    obtain ⟨s, rfl, hs⟩ := afterComment_iff.mp hb
    have hgap := Consumes.gap (.comment hs) (longest_comment hs) (ih h)
    simpa using hgap
  | case5 rest =>
    simp only [reduceCtorEq, Except.error.injEq, Failure.mk.injEq, exists_and_right, false_or] at h
    exact h.2 ▸ .refl
  | case6 c rest _ _ _ hc ih => exact .gap (.blank hc) (longest_blank hc rest) (ih h)
  | case7 c rest =>
    simp only [Except.ok.injEq, reduceCtorEq, exists_false, or_false] at h
    exact h ▸ .refl

theorem Consumes.blanks {s u : List Char} (h : Dot.skipBlanks s = .ok u) : Consumes [] s u :=
  .of_skipBlanks (.inl h)

theorem Lexes.of_skipBlanks {s u : List Char} {ts : List Token} (h : skipBlanks s = .ok u)
    (hu : Lexes u ts) : Lexes s ts := (Consumes.blanks h).lexes hu

/-- What is left of a text without its blanks is nothing or begins with its first token. -/
theorem Lexes.skipBlanks {s : List Char} {ts : List Token} (h : Lexes s ts) :
    ∃ u, skipBlanks s = .ok u ∧ ((u = [] ∧ ts = []) ∨
      ∃ t r ts', token? u = some (t, r) ∧ ts = t :: ts' ∧ Lexes r ts') := by
  induction h with
  | nil => exact ⟨[], skipBlanks_nil, .inl ⟨rfl, rfl⟩⟩
  | gap hp hlongest _ ih => rw [skipBlanks_gap hp hlongest]; exact ih
  | @token t p rest ts ht hlongest hrest _ =>
    obtain ⟨c, s, rfl, hc⟩ := spells_head ht
    refine ⟨_, skipBlanks_stop hc (s ++ rest), .inr ⟨t, rest, ts, ?_, rfl, hrest⟩⟩
    exact (longest_iff_token? ht rest).mp hlongest

theorem lexes_nil_iff {s : List Char} : Lexes s [] ↔ skipBlanks s = .ok [] := by
  constructor
  · intro h
    obtain ⟨u, hu, ⟨rfl, -⟩ | ⟨t, r, ts', -, he, -⟩⟩ := h.skipBlanks
    · exact hu
    · cases he
  · exact fun h => .of_skipBlanks h .nil

theorem lexes_cons_iff {s : List Char} {t : Token} {ts : List Token} :
    Lexes s (t :: ts) ↔ ∃ u r, skipBlanks s = .ok u ∧ token? u = some (t, r) ∧ Lexes r ts := by
  constructor
  · intro h
    obtain ⟨u, hu, ⟨-, he⟩ | ⟨t', r, ts', ht, he, hr⟩⟩ := h.skipBlanks
    · cases he
    · cases he
      exact ⟨u, r, hu, ht, hr⟩
  · rintro ⟨u, r, hu, ht, hr⟩
    refine .of_skipBlanks hu ?_
    cases u with
    | nil => cases ht
    | cons c u =>
      obtain ⟨p, he, hp⟩ := token_sound (head_of_skipBlanks hu) ht
      rw [he] at ht ⊢
      exact .token hp ((longest_iff_token? hp r).mpr ht) hr

/-! ## The tokens before a place -/

theorem Consumes.exists_append {us : List Token} {s r : List Char} (h : Consumes us s r) :
    ∃ before, s = before ++ r ∧ us.length ≤ before.length := by
  induction h with
  | refl => exact ⟨[], rfl, Nat.le_refl 0⟩
  | @gap us p rest r _ _ _ ih =>
    obtain ⟨before, rfl, hle⟩ := ih
    exact ⟨p ++ before, (List.append_assoc ..).symm, by rw [List.length_append]; omega⟩
  | @token k us p rest r hk _ _ ih =>
    obtain ⟨before, rfl, hle⟩ := ih
    obtain ⟨c, p, rfl, -⟩ := spells_head hk
    refine ⟨c :: p ++ before, (List.append_assoc ..).symm, ?_⟩
    simp only [List.length_append, List.length_cons]
    omega

/-- What is longest at a place is one text only. -/
theorem eq_of_longest {p rest q r : List Char} (he : p ++ rest = q ++ r) (hp : Longest p rest)
    (hq : Longest q r) (hk : Gap p ∨ ∃ t, Spells t p) (hl : Gap q ∨ ∃ t, Spells t q) :
    p = q ∧ rest = r := by
  have hle : p.length ≤ q.length := hq p rest he hk
  have hge : q.length ≤ p.length := hp q r he.symm hl
  exact List.append_inj he (Nat.le_antisymm hle hge)

theorem not_spells_of_gap {p : List Char} (h : Gap p) (k : Token) : ¬ Spells k p := by
  intro hk
  obtain ⟨c, s, rfl, hc⟩ := gap_head h
  obtain ⟨d, t, he, hd⟩ := spells_head hk
  rw [(List.cons.inj he).1, hd] at hc
  cases hc

/-- The tokens between two places of a text are determined. -/
theorem Consumes.unique {us vs : List Token} {s r : List Char} (h : Consumes us s r)
    (h' : Consumes vs s r) : us = vs := by
  induction h generalizing vs with
  | refl =>
    obtain ⟨before, hs, hle⟩ := h'.exists_append
    have hnil : before = [] := List.self_eq_append_left.mp hs
    subst hnil
    exact (List.length_eq_zero_iff.mp (Nat.le_zero.mp hle)).symm
  | @gap us p rest r hp hlongest hrest ih =>
    generalize hs : p ++ rest = s at h'
    cases h' with
    | refl =>
      obtain ⟨before, rfl, -⟩ := hrest.exists_append
      obtain ⟨c, t, rfl, -⟩ := gap_head hp
      have hlength := congrArg List.length hs
      simp only [List.length_append, List.length_cons] at hlength
      omega
    | gap hq hlongest' hrest' =>
      obtain ⟨rfl, rfl⟩ := eq_of_longest hs hlongest hlongest' (.inl hp) (.inl hq)
      exact ih hrest'
    | token hk hlongest' _ =>
      obtain ⟨rfl, -⟩ := eq_of_longest hs hlongest hlongest' (.inl hp) (.inr ⟨_, hk⟩)
      exact absurd hk (not_spells_of_gap hp _)
  | @token k us p rest r hk hlongest hrest ih =>
    generalize hs : p ++ rest = s at h'
    cases h' with
    | refl =>
      obtain ⟨before, rfl, -⟩ := hrest.exists_append
      obtain ⟨c, t, rfl, -⟩ := spells_head hk
      have hlength := congrArg List.length hs
      simp only [List.length_append, List.length_cons] at hlength
      omega
    | gap hq hlongest' _ =>
      obtain ⟨rfl, -⟩ := eq_of_longest hs hlongest hlongest' (.inr ⟨_, hk⟩) (.inl hq)
      exact absurd hk (not_spells_of_gap hq _)
    | token hl hlongest' hrest' =>
      obtain ⟨rfl, rfl⟩ := eq_of_longest hs hlongest hlongest' (.inr ⟨_, hk⟩) (.inr ⟨_, hl⟩)
      have hsame := ((longest_iff_token? hk rest).mp hlongest).symm.trans
        ((longest_iff_token? hl rest).mp hlongest)
      cases hsame
      exact congrArg (k :: ·) (ih hrest')

end Tiered.Dot
