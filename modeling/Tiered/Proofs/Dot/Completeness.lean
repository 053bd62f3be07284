import Tiered.Proofs.Dot.Lexing
import Tiered.Proofs.Dot.Reading

/-!
# Phrases of the grammar are read

* `Avoids`: what may not stand behind a phrase, so that the phrase ends where its reader does;
* `id?_complete`, `attrLists_complete`, `endpoint_complete`, `stmt_complete`: the tokens of a phrase
  are read as what it stands for;
* `block_complete`: blocks, by induction on how deep they may lie within one another;
* `document_complete`: a syntax tree of a text is what is read from it.
-/
namespace Tiered.Dot

/-! ## The next token -/

/-- The first of some tokens, if there is one, is none of the given. -/
def Avoids (bad ts : List Token) : Prop := ∀ t ∈ ts.head?, t ∉ bad

theorem Avoids.mono {bad bad' ts : List Token} (h : Avoids bad ts) (hsub : bad' ⊆ bad) :
    Avoids bad' ts := fun t ht hbad => h t ht (hsub hbad)

theorem avoids_cons {bad ts : List Token} {t : Token} (h : t ∉ bad) : Avoids bad (t :: ts) := by
  intro t' ht'
  cases ht'
  exact h

theorem skipBlanks_idem {s u : List Char} (h : skipBlanks s = .ok u) : skipBlanks u = .ok u := by
  fun_induction skipBlanks s with
  | case1 => cases h; exact skipBlanks_nil
  | case2 _ ih | case3 _ ih | case4 _ _ _ ih | case6 _ _ _ _ _ _ ih => exact ih h
  | case5 => cases h
  | case7 c rest h1 h2 h3 hc =>
    cases h
    rw [skipBlanks.eq_def]
    split
    · next he => cases he
    · next he => exact (h1 (List.cons.inj he).1).elim
    · next he => exact (h2 _ (List.cons.inj he).1 (List.cons.inj he).2).elim
    · next he => exact (h3 _ (List.cons.inj he).1 (List.cons.inj he).2).elim
    · next he =>
      cases he
      rw [if_neg hc]

/-- The blanks before a text are no part of its tokens; its first token is the one that is read. -/
theorem Lexes.first {s : List Char} {ts : List Token} (h : Lexes s ts) :
    ∃ u, Dot.skipBlanks s = .ok u ∧ Lexes u ts ∧
      ∀ t r, token? u = some (t, r) → ts.head? = some t := by
  obtain ⟨u, hu, hts⟩ := h.skipBlanks
  refine ⟨u, hu, ?_, ?_⟩
  · rcases hts with ⟨rfl, rfl⟩ | ⟨t, r, ts', ht, rfl, hr⟩
    · exact .nil
    · exact lexes_cons_iff.mpr ⟨u, r, skipBlanks_idem hu, ht, hr⟩
  · intro t r ht
    rcases hts with ⟨rfl, rfl⟩ | ⟨t', r', ts', ht', rfl, -⟩
    · cases ht
    · rw [ht'] at ht
      cases ht
      rfl

theorem Lexes.symbol {s : List Char} {c : Char} {ts : List Token} (h : Lexes s (.symbol c :: ts)) :
    ∃ r, Dot.skipBlanks s = .ok (c :: r) ∧ Lexes r ts := by
  obtain ⟨u, r, hu, ht, hr⟩ := lexes_cons_iff.mp h
  obtain ⟨rfl, -⟩ := readBy_of_token? ht
  exact ⟨r, hu, hr⟩

theorem Lexes.word {s w : List Char} {ts : List Token} (h : Lexes s (.word w :: ts)) :
    ∃ u r, Dot.skipBlanks s = .ok u ∧ word? u = some (w, r) ∧ Lexes r ts := by
  obtain ⟨u, r, hu, ht, hr⟩ := lexes_cons_iff.mp h
  exact ⟨u, r, hu, word?_iff.mpr ht, hr⟩

/-- A text does not begin with a symbol that its first token avoids. -/
theorem ne_symbol {u : List Char} {ts bad : List Token} {c : Char}
    (hfirst : ∀ t r, token? u = some (t, r) → ts.head? = some t) (hts : Avoids bad ts)
    (hc : c ∈ symbols) (hbad : .symbol c ∈ bad) (r : List Char) : u ≠ c :: r := by
  rintro rfl
  exact hts _ (hfirst _ _ (token?_symbol hc r)) hbad

/-! ## Ids -/

theorem joined_plus {s t u behind w r : List Char} {v : List Char}
    (hs : skipBlanks s = .ok ('+' :: t)) (ht : skipBlanks t = .ok ('"' :: u))
    (hu : quoted? u = some (v, behind)) (hr : joined behind = .ok (w, r)) :
    joined s = .ok (v ++ w, r) := by
  rw [joined]
  split
  · next he => rw [hs] at he; cases he
  · next he =>
    rw [hs] at he
    cases he
    split
    · next he => rw [ht] at he; cases he
    · next he =>
      rw [ht] at he
      cases he
      split
      · next he => rw [hu] at he; cases he
      · next he =>
        rw [hu] at he
        cases he
        rw [hr]
        rfl
    · next hne he =>
      rw [ht] at he
      cases he
      exact absurd rfl (hne _)
  · next hne he =>
    rw [hs] at he
    cases he
    exact absurd rfl (hne _)

theorem joined_complete {us ts : List Token} {v s : List Char} (h : IsJoined us v)
    (hs : Lexes s (us ++ ts)) (hts : Avoids [.symbol '+'] ts) :
    ∃ r, joined s = .ok (v, r) ∧ Lexes r ts := by
  induction h generalizing s with
  | nil =>
    obtain ⟨u, hu, -, hfirst⟩ := hs.first
    exact ⟨s, joined_detached ⟨_, hu, ne_symbol hfirst hts (by decide) (by decide)⟩, hs⟩
  | cons hus ih =>
    obtain ⟨t, ht, hs⟩ := hs.symbol
    obtain ⟨u, behind, hu, htoken, hs⟩ := lexes_cons_iff.mp hs
    obtain ⟨q, rfl, hq⟩ := readBy_of_token? htoken
    obtain ⟨r, hr, hts⟩ := ih hs
    exact ⟨r, joined_plus ht hu hq hr, hts⟩

/-- An id is read from the text behind the blanks. -/
theorem id?_complete {us ts : List Token} {a : String} {s : List Char} (h : IsId us a)
    (hs : Lexes s (us ++ ts)) (hts : Avoids [.symbol '+'] ts) :
    ∃ u r, skipBlanks s = .ok u ∧ id? u = .ok (some (a, r)) ∧ Lexes r ts := by
  cases h with
  | quoted hj =>
    obtain ⟨u, q, hu, ht, hs⟩ := lexes_cons_iff.mp hs
    obtain ⟨r, hr, hts⟩ := joined_complete hj hs hts
    refine ⟨u, r, hu, ?_, hts⟩
    rw [id?_of_token? ht, idFrom, hr]
    rfl
  | markup =>
    obtain ⟨u, r, hu, ht, hs⟩ := lexes_cons_iff.mp hs
    exact ⟨u, r, hu, id?_of_token? ht, hs⟩
  | numeral =>
    obtain ⟨u, r, hu, ht, hs⟩ := lexes_cons_iff.mp hs
    exact ⟨u, r, hu, id?_of_token? ht, hs⟩
  | word hw =>
    obtain ⟨u, r, hu, ht, hs⟩ := lexes_cons_iff.mp hs
    refine ⟨u, r, hu, ?_, hs⟩
    rw [id?_of_token? ht, idFrom, hw]
    rfl

theorem id_of_id? {wanted : Wanted} {u : List Char} {q : Taken String}
    (h : id? u = .ok (some q)) : id wanted u = .ok q := by
  rw [id, h]
  rfl

theorem symbol_eq {c : Char} {wanted : Wanted} (r : List Char) :
    symbol c wanted (c :: r) = .ok r := if_pos rfl

theorem skipAttachments_complete {count : Nat} {us ts : List Token} {s : List Char}
    (h : IsAttachments count us) (hs : Lexes s (us ++ ts))
    (hts : Avoids [.symbol '+', .symbol ':'] ts) :
    ∃ r, skipAttachments count s = .ok r ∧ Lexes r ts := by
  induction h generalizing s with
  | @none count =>
    refine ⟨s, ?_, hs⟩
    cases count with
    | zero => rfl
    | succ count =>
      obtain ⟨u, hu, -, hfirst⟩ := hs.first
      have hne := ne_symbol (c := ':') hfirst hts (by decide) (by decide)
      rw [skipAttachments, hu, ok_bind]
      split
      · exact absurd rfl (hne _)
      · rfl
  | @cons count us vs name hid hvs ih =>
    rw [List.cons_append, List.append_assoc] at hs
    obtain ⟨q, hq, hs⟩ := hs.symbol
    have hplus : Avoids [.symbol '+'] (vs ++ ts) := by
      cases hvs with
      | none => exact hts.mono (by simp)
      | cons => exact avoids_cons (by decide)
    obtain ⟨u, r, hu, hr, hs⟩ := id?_complete hid hs hplus
    obtain ⟨r', hr', hts⟩ := ih hs
    refine ⟨r', ?_, hts⟩
    simp only [skipAttachments, hq, hu, ok_bind, id_of_id? hr, hr']

theorem nodeId_complete {us ts : List Token} {a : String} {s : List Char} (h : IsNodeId us a)
    (hs : Lexes s (us ++ ts)) (hts : Avoids [.symbol '+', .symbol ':'] ts) :
    ∃ u r, skipBlanks s = .ok u ∧ nodeId? u = .ok (some (a, r)) ∧ Lexes r ts := by
  obtain @⟨us, vs, _, hid, hvs⟩ := h
  rw [List.append_assoc] at hs
  have hplus : Avoids [.symbol '+'] (vs ++ ts) := by
    cases hvs with
    | none => exact hts.mono (by simp)
    | cons => exact avoids_cons (by decide)
  obtain ⟨u, q, hu, hq, hs⟩ := id?_complete hid hs hplus
  obtain ⟨r, hr, hts⟩ := skipAttachments_complete hvs hs hts
  refine ⟨u, r, hu, ?_, hts⟩
  simp only [nodeId?, hq, ok_bind, hr, pure_ok]

/-! ## Repetition -/

/-- Phrases are read where nothing of `bad` stands behind them. -/
def Complete {α : Type} (item : Reader? α) (Phrase : List Token → α → Prop) (bad : List Token) :
    Prop :=
  ∀ us a s ts, Phrase us a → Lexes s (us ++ ts) → Avoids bad ts →
    ∃ r, item s = .ok (some (a, r)) ∧ Lexes r ts

/-- Phrases that nothing of `bad` begins are read one after another, up to where their reader
declines. -/
theorem many_complete {α : Type} {item : Reader? α} {Phrase : List Token → α → Prop}
    {bad : List Token} (hitem : Complete item Phrase bad) (hadv : Advances item)
    (hstart : ∀ us a ts, Phrase us a → Avoids bad (us ++ ts)) {us ts : List Token} {as : List α}
    {s : List Char} (h : Many Phrase us as) (hs : Lexes s (us ++ ts)) (hts : Avoids bad ts)
    (hend : ∀ r, Lexes r ts → item r = .ok none) :
    ∃ r, many item hadv s = .ok (as, r) ∧ Lexes r ts := by
  induction h generalizing s with
  | nil => exact ⟨s, many_declined (hend s hs), hs⟩
  | @cons us vs a as hus hvs ih =>
    rw [List.append_assoc] at hs
    have hnext : Avoids bad (vs ++ ts) := by
      cases hvs with
      | nil => exact hts
      | cons hv =>
        rw [List.append_assoc]
        exact hstart _ _ _ hv
    obtain ⟨q, hq, hs⟩ := hitem _ _ _ _ hus hs hnext
    obtain ⟨r, hr, hts⟩ := ih hs
    exact ⟨r, many_read hq hr, hts⟩

/-! ## Attributes -/

/-- Tokens that begin ids. -/
def idStart : Token → Bool
  | .quoted _ => true
  | .markup _ => true
  | .numeral _ => true
  | .word w => (keyword? w).isNone
  | .symbol _ => false
  | .edgeOp => false

theorem isId_head {us : List Token} {a : String} (h : IsId us a) :
    ∃ t vs, us = t :: vs ∧ idStart t = true := by
  cases h with
  | quoted | markup | numeral => exact ⟨_, _, rfl, rfl⟩
  | word hw => exact ⟨_, _, rfl, by rw [idStart, hw]; rfl⟩

theorem skipSeparator_complete {us ts : List Token} {s : List Char} (h : IsSeparator us)
    (hs : Lexes s (us ++ ts)) (hts : Avoids [.symbol ',', .symbol ';'] ts) :
    ∃ r, skipSeparator s = .ok r ∧ Lexes r ts := by
  cases h with
  | none =>
    obtain ⟨u, hu, hts', hfirst⟩ := hs.first
    refine ⟨u, ?_, hts'⟩
    have h1 := ne_symbol (c := ',') hfirst hts (by decide) (by decide)
    have h2 := ne_symbol (c := ';') hfirst hts (by decide) (by decide)
    rw [skipSeparator, hu, ok_bind]
    split
    · exact absurd rfl (h1 _)
    · exact absurd rfl (h2 _)
    · rfl
  | comma | semicolon =>
    obtain ⟨r, hr, hts⟩ := hs.symbol
    exact ⟨r, by rw [skipSeparator, hr]; rfl, hts⟩

theorem attr_complete : Complete attr? IsAttr [.symbol '+', .symbol ',', .symbol ';'] := by
  rintro us a s ts @⟨us, vs, ws, key, value, hkey, hvalue, hsep⟩ hs hts
  rw [List.append_assoc, List.cons_append, List.append_assoc] at hs
  have hplus : Avoids [.symbol '+'] (ws ++ ts) := by
    cases hsep with
    | none => exact hts.mono (by simp)
    | comma | semicolon => exact avoids_cons (by decide)
  obtain ⟨u, r₁, hu, hr₁, hs⟩ := id?_complete hkey hs (avoids_cons (by decide))
  obtain ⟨r₂, hr₂, hs⟩ := hs.symbol
  obtain ⟨u₃, r₃, hu₃, hr₃, hs⟩ := id?_complete hvalue hs hplus
  obtain ⟨r, hr, hts⟩ := skipSeparator_complete hsep hs (hts.mono (by simp))
  refine ⟨r, ?_, hts⟩
  have hhead : u.head? ≠ some ']' := by
    intro hhead
    obtain ⟨q, rfl⟩ := List.head?_eq_some_iff.mp hhead
    rw [id?_symbol (by decide)] at hr₁
    cases hr₁
  simp only [attr?, hu, ok_bind, if_neg hhead, id_of_id? hr₁, hr₂, symbol_eq, hu₃, id_of_id? hr₃,
    hr, pure_ok]

theorem attr?_end {s : List Char} {ts : List Token} (hs : Lexes s (.symbol ']' :: ts)) :
    attr? s = .ok none := by
  obtain ⟨r, hr, -⟩ := hs.symbol
  exact attr?_close hr

theorem bracket_complete : Complete bracket? IsBracket [] := by
  rintro us a s ts @⟨us, attrs, hus⟩ hs -
  rw [List.cons_append, List.append_assoc, List.singleton_append] at hs
  obtain ⟨r₁, hr₁, hs⟩ := hs.symbol
  have hstart : ∀ us a ts, IsAttr us a →
      Avoids [.symbol '+', .symbol ',', .symbol ';'] (us ++ ts) := by
    rintro us a ts ⟨hkey, -, -⟩
    obtain ⟨t, us', rfl, ht⟩ := isId_head hkey
    refine avoids_cons ?_
    intro hbad
    simp only [List.mem_cons, List.not_mem_nil, or_false] at hbad
    rcases hbad with rfl | rfl | rfl <;> cases ht
  obtain ⟨r₂, hr₂, hs⟩ := many_complete attr_complete attr_advances hstart hus hs
    (avoids_cons (by decide)) fun r hr => attr?_end hr
  obtain ⟨r, hr, hts⟩ := hs.symbol
  refine ⟨r, ?_, hts⟩
  simp only [bracket?, hr₁, ok_bind, hr₂, hr, symbol_eq, pure_ok]

theorem attrLists_complete {us ts : List Token} {attrs : AttrList} {s : List Char}
    (h : IsAttrLists us attrs) (hs : Lexes s (us ++ ts)) (hts : Avoids [.symbol '['] ts) :
    ∃ r, attrLists s = .ok (attrs, r) ∧ Lexes r ts := by
  obtain ⟨hus⟩ := h
  have hend : ∀ r, Lexes r ts → bracket? r = .ok none := by
    intro r hr
    obtain ⟨u, hu, -, hfirst⟩ := hr.first
    have hne := ne_symbol (c := '[') hfirst hts (by decide) (by decide)
    rw [bracket?, hu, ok_bind]
    split
    · exact absurd rfl (hne _)
    · rfl
  obtain ⟨r, hr, hts⟩ := many_complete bracket_complete bracket_advances
    (fun _ _ _ _ _ _ => List.not_mem_nil) hus hs (hts.mono (by simp)) hend
  exact ⟨r, by rw [attrLists, hr]; rfl, hts⟩

/-! ## Endpoints -/

section Block

variable {b : BlockReader} {Block : List Token → List Stmt → Prop}

/-- Blocks are read from behind their opening brace. -/
def BlockReader.Complete (b : BlockReader) (Block : List Token → List Stmt → Prop) : Prop :=
  ∀ us body, Block us body → ∃ vs, us = .symbol '\x7b' :: vs ∧
    ∀ s ts, Lexes s (vs ++ ts) → ∃ r, b.read s = .ok (body, r) ∧ Lexes r ts

theorem skipBlanks_brace (s : List Char) : skipBlanks ('\x7b' :: s) = .ok ('\x7b' :: s) :=
  skipBlanks_stop (by decide) s

theorem subgraph_complete (hb : b.Complete Block) {us ts : List Token} {body : List Stmt}
    {s : List Char} (h : IsSubgraph Block us body) (hs : Lexes s (us ++ ts)) :
    ∃ u r, skipBlanks s = .ok u ∧ subgraph? b u = .ok (some (body, r)) ∧ Lexes r ts := by
  cases h with
  | bare hus =>
    obtain ⟨vs, rfl, hread⟩ := hb _ _ hus
    obtain ⟨q, hq, hs⟩ := hs.symbol
    obtain ⟨r, hr, hts⟩ := hread q ts hs
    refine ⟨_, r, hq, ?_, hts⟩
    have hword : word? ('\x7b' :: q) = none := rfl
    simp only [subgraph?, hword, hr, ok_bind, pure_ok]
  | headed hw hus =>
    obtain ⟨vs, rfl, hread⟩ := hb _ _ hus
    obtain ⟨u, q, hu, hword, hs⟩ := hs.word
    obtain ⟨q', hq', hs⟩ := hs.symbol
    obtain ⟨r, hr, hts⟩ := hread q' ts hs
    refine ⟨u, r, hu, ?_, hts⟩
    simp only [subgraph?, hword, hw, if_true, hq', ok_bind, skipName, id?_brace, pure_ok,
      skipBlanks_brace, symbol_eq, hr]
  | @named w us vs name _ hw hname hvs =>
    obtain ⟨vs, rfl, hread⟩ := hb _ _ hvs
    rw [List.cons_append, List.append_assoc] at hs
    obtain ⟨u, q, hu, hword, hs⟩ := hs.word
    obtain ⟨u', q', hu', hq', hs⟩ := id?_complete hname hs (avoids_cons (by decide))
    obtain ⟨p, hp, hs⟩ := hs.symbol
    obtain ⟨r, hr, hts⟩ := hread p ts hs
    refine ⟨u, r, hu, ?_, hts⟩
    simp only [subgraph?, hword, hw, if_true, hu', ok_bind, skipName, hq', pure_ok, hp, symbol_eq,
      hr]

theorem subgraph?_declines {u r : List Char} {t : Token} (ht : token? u = some (t, r))
    (hid : idStart t = true) : subgraph? b u = .ok none := by
  unfold subgraph?
  split
  · rename_i w behind hword
    rw [word?_iff, ht] at hword
    cases hword
    have hw : keyword? w ≠ some .subgraph := by
      intro hw
      simp [idStart, hw] at hid
    rw [if_neg hw, pure_ok]
  · split
    · rename_i behind
      rw [token?_symbol (by decide)] at ht
      cases ht
      cases hid
    · rfl

theorem endpoint_complete (hb : b.Complete Block) {us ts : List Token} {e : Endpoint}
    {s : List Char} (h : IsEndpoint Block us e) (hs : Lexes s (us ++ ts))
    (hts : Avoids [.symbol '+', .symbol ':'] ts) :
    ∃ u r, skipBlanks s = .ok u ∧ endpoint? b u = .ok (some (e, r)) ∧ Lexes r ts := by
  cases h with
  | block hus =>
    obtain ⟨u, r, hu, hr, hts⟩ := subgraph_complete hb hus hs
    exact ⟨u, r, hu, by rw [endpoint?, hr]; rfl, hts⟩
  | node hid =>
    obtain ⟨u, r, hu, hr, hts'⟩ := nodeId_complete hid hs hts
    refine ⟨u, r, hu, ?_, hts'⟩
    obtain @⟨us, vs, _, hkey, -⟩ := hid
    obtain ⟨t, us', rfl, ht⟩ := isId_head hkey
    obtain ⟨u', q, hu', hq, -⟩ := lexes_cons_iff.mp hs
    rw [hu] at hu'
    cases hu'
    rw [endpoint?, subgraph?_declines hq ht]
    simp only [ok_bind, hr, pure_ok]

theorem target_complete (hb : b.Complete Block) :
    Complete (target? b) (IsTarget Block) [.symbol '+', .symbol ':'] := by
  rintro us e s ts ⟨hus⟩ hs hts
  obtain ⟨u, q, hu, hop, hs⟩ := lexes_cons_iff.mp hs
  obtain ⟨u', r, hu', hr, hts⟩ := endpoint_complete hb hus hs hts
  refine ⟨r, ?_, hts⟩
  simp only [target?, hu, ok_bind, edgeOp?_iff.mpr hop, hu', hr, pure_ok]

/-! ## Statements -/

/-- What would go on with a statement. -/
def stmtGoesOn : List Token := [.symbol '+', .symbol ':', .symbol '=', .symbol '[', .edgeOp]

theorem target?_declines {ts : List Token} {s : List Char} (hs : Lexes s ts)
    (hts : Avoids [.edgeOp] ts) : target? b s = .ok none := by
  obtain ⟨u, hu, -, hfirst⟩ := hs.first
  have hop : edgeOp? u = none := by
    cases ho : edgeOp? u with
    | none => rfl
    | some r => exact absurd (List.mem_singleton.mpr rfl) (hts _ (hfirst _ _ (edgeOp?_iff.mp ho)))
  rw [target?, hu]
  simp only [ok_bind, hop, pure_ok]

theorem attrLists_avoids {bad us ts : List Token} {attrs : AttrList} (h : IsAttrLists us attrs)
    (hbad : .symbol '[' ∉ bad) (hts : Avoids bad ts) : Avoids bad (us ++ ts) := by
  obtain ⟨hus⟩ := h
  cases hus with
  | nil => exact hts
  | cons hb =>
    obtain ⟨-⟩ := hb
    exact avoids_cons hbad

theorem targets_avoid {bad us ts : List Token} {targets : List Endpoint}
    (h : Many (IsTarget Block) us targets) (hbad : .edgeOp ∉ bad) (hts : Avoids bad ts) :
    Avoids bad (us ++ ts) := by
  cases h with
  | nil => exact hts
  | cons hb =>
    obtain ⟨-⟩ := hb
    exact avoids_cons hbad

/-- A chain of endpoints with its attributes is read. -/
theorem chain_complete (hb : b.Complete Block) {us vs ws ts : List Token} {first : Endpoint}
    {targets : List Endpoint} {attrs : AttrList} {s : List Char}
    (hus : IsEndpoint Block us first) (hvs : Many (IsTarget Block) vs targets)
    (hws : IsAttrLists ws attrs) (hs : Lexes s (us ++ (vs ++ (ws ++ ts))))
    (hts : Avoids stmtGoesOn ts) :
    ∃ u r, skipBlanks s = .ok u ∧ chain b u = .ok (.ofChain first targets attrs, r) ∧
      Lexes r ts := by
  have hbehind : ∀ {bad : List Token}, .edgeOp ∉ bad → .symbol '[' ∉ bad → bad ⊆ stmtGoesOn →
      Avoids bad (vs ++ (ws ++ ts)) := fun h1 h2 h3 =>
    targets_avoid hvs h1 (attrLists_avoids hws h2 (hts.mono h3))
  obtain ⟨u, q, hu, hq, hs⟩ :=
    endpoint_complete hb hus hs (hbehind (by decide) (by decide) (by decide))
  obtain ⟨v, hv, hs, hfirst⟩ := hs.first
  have hnext : Avoids [.symbol '='] (vs ++ (ws ++ ts)) :=
    hbehind (by decide) (by decide) (by decide)
  have hequals := ne_symbol (c := '=') hfirst hnext (by decide) (by decide)
  obtain ⟨p, hp, hs⟩ := many_complete (target_complete hb) (target_advances b)
    (by rintro us e ts ⟨-⟩; exact avoids_cons (by decide)) hvs hs
    (attrLists_avoids hws (by decide) (hts.mono (by decide)))
    fun r hr => target?_declines hr (attrLists_avoids hws (by decide) (hts.mono (by decide)))
  obtain ⟨r, hr, hts⟩ := attrLists_complete hws hs (hts.mono (by decide))
  refine ⟨u, r, hu, ?_, hts⟩
  simp only [chain, hq, ok_bind, hv]
  split
  · exact absurd rfl (hequals _)
  · simp only [hp, ok_bind, hr, pure_ok]

/-- Tokens that begin endpoints. -/
def endpointStart : Token → Bool
  | .word w => keyword? w = none ∨ keyword? w = some .subgraph
  | .symbol c => c = '\x7b'
  | t => idStart t

theorem endpointStart_of_idStart {t : Token} (h : idStart t = true) : endpointStart t = true := by
  cases t with
  | word w =>
    have hw : keyword? w = none := by simpa [idStart] using h
    simp [endpointStart, hw]
  | symbol | edgeOp => cases h
  | quoted | markup | numeral => rfl

theorem isNodeId_head {us : List Token} {a : String} (h : IsNodeId us a) :
    ∃ t vs, us = t :: vs ∧ idStart t = true := by
  obtain ⟨hid, -⟩ := h
  obtain ⟨t, vs, rfl, ht⟩ := isId_head hid
  exact ⟨t, _, rfl, ht⟩

theorem isEndpoint_head (hb : b.Complete Block) {us : List Token} {e : Endpoint}
    (h : IsEndpoint Block us e) : ∃ t vs, us = t :: vs ∧ endpointStart t = true := by
  cases h with
  | node hid =>
    obtain ⟨t, vs, rfl, ht⟩ := isNodeId_head hid
    exact ⟨t, vs, rfl, endpointStart_of_idStart ht⟩
  | block hus =>
    cases hus with
    | bare hus =>
      obtain ⟨vs, rfl, -⟩ := hb _ _ hus
      exact ⟨_, vs, rfl, rfl⟩
    | headed hw | named hw => exact ⟨_, _, rfl, by simp [endpointStart, hw]⟩

theorem stmt_eq_chain {u r : List Char} {t : Token} (ht : token? u = some (t, r))
    (hstart : endpointStart t = true) : stmt b u = chain b u := by
  unfold stmt
  split
  · rfl
  · rename_i w behind hword
    rw [word?_iff, ht] at hword
    cases hword
    simp only [endpointStart, decide_eq_true_eq] at hstart
    rcases hstart with hw | hw <;> rw [hw]

/-- What a statement begins with if it is no statement of defaults. -/
theorem stmt_of_chain (hb : b.Complete Block) {us vs : List Token} {e : Endpoint} {st : Stmt}
    {s : List Char} {ts : List Token} (hus : IsEndpoint Block us e)
    (hs : Lexes s (us ++ vs))
    (h : ∃ u r, skipBlanks s = .ok u ∧ chain b u = .ok (st, r) ∧ Lexes r ts) :
    ∃ u r, skipBlanks s = .ok u ∧ stmt b u = .ok (st, r) ∧ Lexes r ts := by
  obtain ⟨t, us', rfl, ht⟩ := isEndpoint_head hb hus
  obtain ⟨u, r, hu, hr, hts⟩ := h
  obtain ⟨u', q, hu', hq, -⟩ := lexes_cons_iff.mp hs
  rw [hu] at hu'
  cases hu'
  exact ⟨u, r, hu, by rw [stmt_eq_chain hq ht, hr], hts⟩

theorem stmt_complete (hb : b.Complete Block) {us ts : List Token} {st : Stmt} {s : List Char}
    (h : IsStmt Block us st) (hs : Lexes s (us ++ ts)) (hts : Avoids stmtGoesOn ts) :
    ∃ u r, skipBlanks s = .ok u ∧ stmt b u = .ok (st, r) ∧ Lexes r ts := by
  cases h with
  | @defaults w us target attrs hw hus =>
    obtain ⟨u, q, hu, hword, hs⟩ := hs.word
    obtain ⟨r, hr, hts⟩ := attrLists_complete hus hs (hts.mono (by decide))
    refine ⟨u, r, hu, ?_, hts⟩
    have hdefaults : defaults target q = .ok (.defaults target attrs, r) := by
      rw [defaults, hr]
      rfl
    cases target <;> simp only [stmt, hword, hw, Target.keyword, hdefaults]
  | @setting us vs key value hkey hvalue =>
    rw [List.append_assoc, List.cons_append] at hs
    refine stmt_of_chain hb (.node hkey) hs ?_
    obtain ⟨u, q, hu, hq, hs⟩ := endpoint_complete hb (.node hkey) hs (avoids_cons (by decide))
    obtain ⟨p, hp, hs⟩ := hs.symbol
    obtain ⟨u', r, hu', hr, hts⟩ := id?_complete hvalue hs (hts.mono (by decide))
    refine ⟨u, r, hu, ?_, hts⟩
    simp only [chain, hq, ok_bind, hp, hu', id_of_id? hr, pure_ok]
  | node hid hvs =>
    rw [List.append_assoc] at hs
    exact stmt_of_chain hb (.node hid) hs (chain_complete hb (.node hid) .nil hvs hs hts)
  | block hus hvs =>
    rw [List.append_assoc] at hs
    exact stmt_of_chain hb (.block hus) hs (chain_complete hb (.block hus) .nil hvs hs hts)
  | @edges us vs ws first second others attrs hus hvs hws =>
    rw [List.append_assoc, List.append_assoc] at hs
    refine stmt_of_chain hb hus hs ?_
    have hchain := chain_complete hb hus hvs hws hs hts
    have hstmt : Stmt.ofChain first (second :: others) attrs =
        .edges (first :: second :: others) attrs := by
      cases first <;> rfl
    rwa [hstmt] at hchain

/-- Tokens that begin statements. -/
theorem isStmt_head (hb : b.Complete Block) {us : List Token} {st : Stmt} (h : IsStmt Block us st) :
    ∃ t vs, us = t :: vs ∧ t ∉ stmtGoesOn ∧ t ≠ .symbol ';' ∧ t ≠ .symbol '\x7d' := by
  have hstart : ∀ {e : Endpoint} {us vs : List Token}, IsEndpoint Block us e →
      ∃ t ws, us ++ vs = t :: ws ∧ t ∉ stmtGoesOn ∧ t ≠ .symbol ';' ∧ t ≠ .symbol '\x7d' := by
    intro e us vs hus
    obtain ⟨t, us', rfl, ht⟩ := isEndpoint_head hb hus
    refine ⟨t, us' ++ vs, rfl, ?_, ?_, ?_⟩
    · intro hbad
      simp only [stmtGoesOn, List.mem_cons, List.not_mem_nil, or_false] at hbad
      rcases hbad with rfl | rfl | rfl | rfl | rfl <;> exact absurd ht (by decide)
    · rintro rfl
      exact absurd ht (by decide)
    · rintro rfl
      exact absurd ht (by decide)
  cases h with
  | defaults => exact ⟨_, _, rfl, by simp [stmtGoesOn], nofun, nofun⟩
  | setting hid | node hid => exact hstart (.node hid)
  | block hus => exact hstart (.block hus)
  | edges hus => exact hstart hus

theorem item_complete (hb : b.Complete Block) : Complete (stmt? b) (IsItem Block) stmtGoesOn := by
  intro us items s ts h hs hts
  cases h with
  | semicolon =>
    obtain ⟨r, hr, hts⟩ := hs.symbol
    exact ⟨r, by rw [stmt?, hr]; rfl, hts⟩
  | stmt hst =>
    obtain ⟨u, r, hu, hr, hts⟩ := stmt_complete hb hst hs hts
    refine ⟨r, ?_, hts⟩
    obtain ⟨t, vs, rfl, -, hsemicolon, hbrace⟩ := isStmt_head hb hst
    obtain ⟨u', q, hu', hq, -⟩ := lexes_cons_iff.mp hs
    rw [hu] at hu'
    cases hu'
    rw [stmt?, hu, ok_bind]
    split
    · cases hq
    · rw [token?_symbol (by decide)] at hq
      cases hq
      exact absurd rfl hbrace
    · rw [token?_symbol (by decide)] at hq
      cases hq
      exact absurd rfl hsemicolon
    · rw [hr]
      rfl

theorem statements_complete (hb : b.Complete Block) {us : List Token} {body : List Stmt}
    (h : Braced Block us body) : ∃ vs, us = .symbol '\x7b' :: vs ∧
      ∀ s ts, Lexes s (vs ++ ts) → ∃ r, statements b s = .ok (body, r) ∧ Lexes r ts := by
  obtain ⟨hus⟩ := h
  refine ⟨_, rfl, ?_⟩
  intro s ts hs
  rw [List.append_assoc, List.singleton_append] at hs
  have hstart : ∀ us items ts, IsItem Block us items → Avoids stmtGoesOn (us ++ ts) := by
    intro us items ts h
    cases h with
    | semicolon => exact avoids_cons (by decide)
    | stmt hst =>
      obtain ⟨t, vs, rfl, ht, -⟩ := isStmt_head hb hst
      exact avoids_cons ht
  have hend : ∀ r, Lexes r (.symbol '\x7d' :: ts) → stmt? b r = .ok none := by
    intro r hr
    obtain ⟨q, hq, -⟩ := hr.symbol
    rw [stmt?, hq]
    rfl
  obtain ⟨q, hq, hs⟩ := many_complete (item_complete hb) (stmt_advances b) hstart hus hs
    (avoids_cons (by decide)) hend
  obtain ⟨r, hr, hts⟩ := hs.symbol
  refine ⟨r, ?_, hts⟩
  simp only [statements, hq, ok_bind, hr, symbol_eq, pure_ok]

end Block

theorem block_complete (depth : Nat) : (block depth).Complete (IsBlock depth) := by
  induction depth with
  | zero => exact fun _ _ h => h.elim
  | succ depth ih => exact fun _ _ h => statements_complete ih h

/-! ## Documents -/

theorem header_complete {us ts : List Token} {k : Token} {strict directed : Bool} {s : List Char}
    (hus : IsStrict us strict) (hk : IsKind k directed) (hs : Lexes s (us ++ k :: ts)) :
    ∃ r, header s = .ok ((strict, directed), r) ∧ Lexes r ts := by
  have hkind : ∃ w, k = .word w ∧ keyword? w ≠ some .strict ∧
      ∀ start, header.kind start w = .ok directed := by
    cases hk with
    | graph hw | digraph hw => exact ⟨_, rfl, by simp [hw], fun start => by simp [header.kind, hw]⟩
  obtain ⟨w, rfl, hstrict, hkind⟩ := hkind
  cases hus with
  | no =>
    obtain ⟨u, r, hu, hword, hts⟩ := hs.word
    refine ⟨r, ?_, hts⟩
    simp only [header, hu, ok_bind, hword, hkind, pure_ok]
  | yes hw =>
    obtain ⟨u, q, hu, hword, hs⟩ := hs.word
    obtain ⟨u', r, hu', hword', hts⟩ := hs.word
    refine ⟨r, ?_, hts⟩
    simp only [header, hu, ok_bind, hword, hw, hu', hword', hkind, pure_ok]

theorem document_complete {s : List Char} {d : Document} (h : IsDocument s d) :
    document s = .ok d := by
  obtain ⟨ts, hs, @⟨us, k, vs, ws, strict, directed, name, body, hus, hk, hvs, hws⟩⟩ := h
  obtain ⟨r₁, hr₁, hs⟩ := header_complete hus hk hs
  obtain ⟨ws, rfl, hread⟩ := block_complete _ _ _ hws
  have hbody : ∀ {q}, Lexes q ws →
      ∃ p, (block (maxNesting + 1)).read q = .ok (body, p) ∧ skipBlanks p = .ok [] := by
    intro q hq
    obtain ⟨p, hp, hend⟩ := hread q [] (by rwa [List.append_nil])
    exact ⟨p, hp, lexes_nil_iff.mp hend⟩
  cases hvs with
  | none =>
    obtain ⟨q, hq, hs⟩ := hs.symbol
    obtain ⟨p, hp, hend⟩ := hbody hs
    simp only [document, hr₁, ok_bind, hq, id?_brace, skipBlanks_brace, symbol_eq, hp, hend,
      pure_ok]
  | some hname =>
    obtain ⟨u, r₂, hu, hr₂, hs⟩ := id?_complete hname hs (avoids_cons (by decide))
    obtain ⟨q, hq, hs⟩ := hs.symbol
    obtain ⟨p, hp, hend⟩ := hbody hs
    simp only [document, hr₁, ok_bind, hu, hr₂, hq, symbol_eq, hp, hend, pure_ok]

end Tiered.Dot
