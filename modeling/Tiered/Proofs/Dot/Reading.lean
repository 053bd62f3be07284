import Tiered.Dot.Parser.Document
import Tiered.Proofs.Dot.Spelling
import Tiered.Proofs.Table

/-!
# Reading the canonical text

* `tree`: the syntax tree that the canonical text of a graph is read as;
* `document_graphText`: it is read so, if every text of the graph has a spelling.

Each lemma follows one reader over the text that the printer writes for it. What a reader leaves
before the next part is compared by what is left of it without blanks.
-/
namespace Tiered.Dot

/-- Every name and every value has a spelling. -/
def SpellablePairs (pairs : List (String × String)) : Prop :=
  ∀ e ∈ pairs, Spellable e.1 ∧ Spellable e.2

instance (pairs : List (String × String)) : Decidable (SpellablePairs pairs) :=
  inferInstanceAs (Decidable (∀ e ∈ pairs, _))

@[simp] theorem ok_bind {ε α β : Type} (a : α) (f : α → Except ε β) :
    ((.ok a : Except ε α) >>= f) = f a := rfl

@[simp] theorem pure_ok {ε α : Type} (a : α) : (pure a : Except ε α) = .ok a := rfl

theorem many_declined {α : Type} {item : Reader? α} {h : Advances item} {s : List Char}
    (hs : item s = .ok none) : many item h s = .ok ([], s) := by
  rw [many]
  split
  · next he => rw [hs] at he; cases he
  · rfl
  · next he => rw [hs] at he; cases he

theorem many_read {α : Type} {item : Reader? α} {h : Advances item} {s t r : List Char} {a : α}
    {as : List α} (hs : item s = .ok (some (a, t))) (ht : many item h t = .ok (as, r)) :
    many item h s = .ok (a :: as, r) := by
  rw [many]
  split
  · next he => rw [hs] at he; cases he
  · next he => rw [hs] at he; cases he
  · next he =>
    rw [hs] at he
    cases he
    rw [ht]

theorem id_quote {v : String} (hv : Spellable v) {wanted : Wanted} {rest t : List Char} {c : Char}
    (hrest : skipBlanks rest = .ok (c :: t)) (hc : c ≠ '+') :
    id wanted (quote v ++ rest) = .ok (v, rest) := by
  rw [id, id?_quote hv (detached_of_cons hrest hc)]
  rfl

/-! ## Attributes -/

theorem attr?_pair {e : String × String} (he : Spellable e.1 ∧ Spellable e.2)
    {s rest t u : List Char} {c : Char} (hs : skipBlanks s = .ok (pair e ++ rest))
    (hrest : skipBlanks rest = .ok (c :: t)) (hc : c ≠ '+') (hsep : skipSeparator rest = .ok u) :
    attr? s = .ok (some (e, u)) := by
  have htext : pair e ++ rest = quote e.1 ++ ('=' :: (quote e.2 ++ rest)) := by simp [pair]
  have hhead : (quote e.1 ++ ('=' :: (quote e.2 ++ rest))).head? ≠ some ']' := by
    obtain ⟨d, v, hv, hd | hd⟩ := quote_head e.1 <;> simp [hv, hd]
  have hequals : skipBlanks ('=' :: (quote e.2 ++ rest)) = .ok ('=' :: (quote e.2 ++ rest)) :=
    skipBlanks_stop (by decide) _
  rw [htext] at hs
  rw [attr?, hs]
  simp only [ok_bind, if_neg hhead, id_quote he.1 hequals (by decide), hequals, symbol,
    if_true, skipBlanks_quote, id_quote he.2 hrest hc, hsep, pure_ok]

theorem attr?_close {s rest : List Char} (hs : skipBlanks s = .ok (']' :: rest)) :
    attr? s = .ok none := by
  rw [attr?, hs]
  rfl

theorem many_attr {entries : List (String × String)} (h : SpellablePairs entries)
    (rest : List Char) {s : List Char}
    (hs : skipBlanks s =
      skipBlanks ([',', ' '].intercalate (entries.map pair) ++ ']' :: rest)) :
    ∃ r, many attr? attr_advances s = .ok (entries, r) ∧ skipBlanks r = .ok (']' :: rest) := by
  have hclose : skipBlanks (']' :: rest) = .ok (']' :: rest) := skipBlanks_stop (by decide) _
  induction entries generalizing s with
  | nil =>
    have hs : skipBlanks s = .ok (']' :: rest) := hs.trans hclose
    exact ⟨s, many_declined (attr?_close hs), hs⟩
  | cons e entries ih =>
    have he := h e List.mem_cons_self
    have hskip : ∀ t, skipBlanks (pair e ++ t) = .ok (pair e ++ t) := by
      intro t
      simpa [pair] using skipBlanks_quote e.1 ('=' :: quote e.2 ++ t)
    cases entries with
    | nil =>
      have hs : skipBlanks s = .ok (pair e ++ ']' :: rest) := by
        simpa [hskip] using hs
      have hread := attr?_pair he hs hclose (by decide) (by rw [skipSeparator, hclose]; rfl)
      exact ⟨_, many_read hread (many_declined (attr?_close hclose)), hclose⟩
    | cons f entries =>
      let more := [',', ' '].intercalate ((f :: entries).map pair) ++ ']' :: rest
      have hs : skipBlanks s = .ok (pair e ++ ',' :: ' ' :: more) := by
        rw [hs, ← hskip]
        simp [more, List.intercalate_cons_cons]
      have hcomma : skipBlanks (',' :: ' ' :: more) = .ok (',' :: ' ' :: more) :=
        skipBlanks_stop (by decide) _
      have hread := attr?_pair he hs hcomma (by decide) (by rw [skipSeparator, hcomma]; rfl)
      obtain ⟨r, hr, hend⟩ := ih (fun e he => h e (List.mem_cons_of_mem _ he))
        (skipBlanks_space more)
      exact ⟨r, many_read hread hr, hend⟩

theorem bracket?_bracket {attrs : Attrs} (h : SpellablePairs attrs.entries) {s rest : List Char}
    (hs : skipBlanks s = .ok (bracket attrs ++ rest)) :
    bracket? s = .ok (some (attrs.entries, rest)) := by
  obtain ⟨r, hr, hend⟩ := many_attr h rest rfl
  rw [bracket?, hs]
  simp [bracket, hr, hend, symbol]

theorem bracket?_end {c : Char} {s : List Char} (hc : stops c = true) (hne : c ≠ '[') :
    bracket? (c :: s) = .ok none := by
  rw [bracket?, skipBlanks_stop hc]
  simp [hne]

/-- The attribute list behind an id; there is none for no attributes. -/
def listText (attrs : Attrs) : List Char :=
  if attrs.isEmpty then [] else ' ' :: bracket attrs

theorem attrLists_end (rest : List Char) : attrLists (';' :: rest) = .ok ([], ';' :: rest) := by
  have hend : many bracket? bracket_advances (';' :: rest) = .ok ([], ';' :: rest) :=
    many_declined (bracket?_end (by decide) (by decide))
  rw [attrLists, hend]
  rfl

theorem attrLists_bracket {attrs : Attrs} (h : SpellablePairs attrs.entries) {s rest : List Char}
    (hs : skipBlanks s = .ok (bracket attrs ++ ';' :: rest)) :
    attrLists s = .ok (attrs.entries, ';' :: rest) := by
  have hend : many bracket? bracket_advances (';' :: rest) = .ok ([], ';' :: rest) :=
    many_declined (bracket?_end (by decide) (by decide))
  rw [attrLists, many_read (bracket?_bracket h hs) hend]
  simp

/-- Behind an id stands its attribute list or the end of the statement. The list is read from
before the blank and from behind it. -/
theorem attrLists_listText {attrs : Attrs} (h : SpellablePairs attrs.entries)
    (rest : List Char) : ∃ c s, skipBlanks (listText attrs ++ ';' :: rest) = .ok (c :: s) ∧
      (c = ';' ∨ c = '[') ∧ attrLists (c :: s) = .ok (attrs.entries, ';' :: rest) ∧
      attrLists (listText attrs ++ ';' :: rest) = .ok (attrs.entries, ';' :: rest) := by
  by_cases he : attrs.isEmpty = true
  · have hnil : attrs.entries = [] := List.isEmpty_iff.mp he
    have hlist : listText attrs = [] := by rw [listText, if_pos he]
    rw [hlist, hnil]
    exact ⟨';', rest, skipBlanks_stop (by decide) rest, .inl rfl, attrLists_end rest,
      attrLists_end rest⟩
  · have hstart : skipBlanks (bracket attrs ++ ';' :: rest) = .ok (bracket attrs ++ ';' :: rest) :=
      skipBlanks_stop (c := '[') (by decide) _
    have hlist : skipBlanks (listText attrs ++ ';' :: rest) =
        .ok (bracket attrs ++ ';' :: rest) := by
      rw [listText, if_neg he, List.cons_append, skipBlanks_space, hstart]
    obtain ⟨s, hs⟩ : ∃ s, bracket attrs ++ ';' :: rest = '[' :: s := ⟨_, rfl⟩
    refine ⟨'[', s, hs ▸ hlist, .inr rfl, ?_, attrLists_bracket h hlist⟩
    rw [← hs]
    exact attrLists_bracket h hstart

/-! ## Statements -/

theorem skipAttachments_none {count : Nat} {s t : List Char} {c : Char}
    (hs : skipBlanks s = .ok (c :: t)) (hc : c ≠ ':') : skipAttachments count s = .ok s := by
  cases count with
  | zero => rfl
  | succ count =>
    rw [skipAttachments, hs]
    simp [hc]

theorem subgraph?_quote (block : BlockReader) (id : String) (rest : List Char) :
    subgraph? block (quote id ++ rest) = .ok none := by
  obtain ⟨c, s, hs, hc | hc⟩ := quote_head id <;>
  · subst hc
    rw [hs]
    rfl

theorem endpoint?_quote (block : BlockReader) {id : String} (h : Spellable id)
    {rest t : List Char} {c : Char} (hrest : skipBlanks rest = .ok (c :: t)) (hplus : c ≠ '+')
    (hcolon : c ≠ ':') :
    endpoint? block (quote id ++ rest) = .ok (some (.node id, rest)) := by
  rw [endpoint?, subgraph?_quote]
  simp only [ok_bind, nodeId?, id?_quote h (detached_of_cons hrest hplus),
    skipAttachments_none hrest hcolon]
  rfl

theorem target?_none {block : BlockReader} {s t : List Char} {c : Char}
    (hs : skipBlanks s = .ok (c :: t)) (hc : c ≠ '-') : target? block s = .ok none := by
  have hop : edgeOp? (c :: t) = none := by
    unfold edgeOp?
    split <;> simp_all
  rw [target?, hs]
  simp [hop]

theorem stmt_quote (block : BlockReader) (id : String) (rest : List Char) :
    stmt block (quote id ++ rest) = chain block (quote id ++ rest) := by
  rw [stmt, word?_quote]

/-- A line of the text holds a spelling first, and before its `;` a statement is read. -/
structure ReadAs (block : BlockReader) (line : List Char) (st : Stmt) : Prop where
  begins : ∃ id rest, line = quote id ++ rest
  reads : ∀ rest, stmt block (line ++ ';' :: rest) = .ok (st, ';' :: rest)

theorem readAs_attr (block : BlockReader) {e : String × String}
    (he : Spellable e.1 ∧ Spellable e.2) : ReadAs block (pair e) (.defaults .graph [e]) where
  begins := ⟨e.1, _, rfl⟩
  reads rest := by
    have hequals : skipBlanks ('=' :: (quote e.2 ++ ';' :: rest)) =
        .ok ('=' :: (quote e.2 ++ ';' :: rest)) := skipBlanks_stop (by decide) _
    have hend : skipBlanks (';' :: rest) = .ok (';' :: rest) := skipBlanks_stop (by decide) _
    have hfirst := endpoint?_quote block he.1 hequals (by decide) (by decide)
    have htext : pair e ++ ';' :: rest = quote e.1 ++ ('=' :: (quote e.2 ++ ';' :: rest)) := by
      simp [pair]
    rw [htext, stmt_quote, chain, hfirst]
    simp only [ok_bind, hequals, skipBlanks_quote, id_quote he.2 hend (by decide)]
    rfl

theorem readAs_node (block : BlockReader) {id : String} (hid : Spellable id) {attrs : Attrs}
    (hattrs : SpellablePairs attrs.entries) :
    ReadAs block (quote id ++ listText attrs) (.node id attrs.entries) where
  begins := ⟨id, _, rfl⟩
  reads rest := by
    obtain ⟨c, s, hs, hc, hread, -⟩ := attrLists_listText hattrs rest
    have hfirst : endpoint? block (quote id ++ (listText attrs ++ ';' :: rest)) =
        .ok (some (.node id, listText attrs ++ ';' :: rest)) := by
      apply endpoint?_quote block hid hs <;>
      · rcases hc with rfl | rfl <;> decide
    have htargets : many (target? block) (target_advances block) (c :: s) = .ok ([], c :: s) := by
      apply many_declined
      rcases hc with rfl | rfl <;> exact target?_none (skipBlanks_stop (by decide) s) (by decide)
    have hne : c ≠ '=' := by rcases hc with rfl | rfl <;> decide
    rw [List.append_assoc, stmt_quote, chain, hfirst]
    simp [hs, htargets, hread, hne, Stmt.ofChain]

theorem target?_quote (block : BlockReader) {v : String} (hv : Spellable v) {s rest t : List Char}
    {c : Char} {directed : Bool}
    (hs : skipBlanks s =
      .ok ('-' :: (if directed then '>' else '-') :: ' ' :: (quote v ++ rest)))
    (hrest : skipBlanks rest = .ok (c :: t)) (hplus : c ≠ '+') (hcolon : c ≠ ':') :
    target? block s = .ok (some (.node v, rest)) := by
  have hop : edgeOp? ('-' :: (if directed then '>' else '-') :: ' ' :: (quote v ++ rest)) =
      some (' ' :: (quote v ++ rest)) := by
    cases directed <;> rfl
  rw [target?, hs]
  simp only [ok_bind, hop, skipBlanks_space, skipBlanks_quote,
    endpoint?_quote block hv hrest hplus hcolon]
  rfl

theorem edgeText_eq (directed : Bool) (e : Edge) : edgeText directed e =
    quote e.source ++ (' ' :: '-' :: (if directed then '>' else '-') :: ' ' ::
      (quote e.target ++ listText e.attrs)) := by
  cases directed <;> simp [edgeText, listText]

theorem readAs_edge (block : BlockReader) {e : Edge} (hs : Spellable e.source)
    (ht : Spellable e.target) (hattrs : SpellablePairs e.attrs.entries) (directed : Bool) :
    ReadAs block (edgeText directed e)
      (.edges [.node e.source, .node e.target] e.attrs.entries) where
  begins := ⟨e.source, _, edgeText_eq directed e⟩
  reads rest := by
    obtain ⟨c, s, hlist, hc, -, hread⟩ := attrLists_listText hattrs rest
    have hplus : c ≠ '+' := by rcases hc with rfl | rfl <;> decide
    have hcolon : c ≠ ':' := by rcases hc with rfl | rfl <;> decide
    have hminus : c ≠ '-' := by rcases hc with rfl | rfl <;> decide
    let behind := '-' :: (if directed then '>' else '-') :: ' ' ::
      (quote e.target ++ (listText e.attrs ++ ';' :: rest))
    have hop : skipBlanks behind = .ok behind := skipBlanks_stop (by decide) _
    have hop' : skipBlanks (' ' :: behind) = .ok behind := (skipBlanks_space _).trans hop
    have hfirst := endpoint?_quote block hs hop' (by decide) (by decide)
    have htarget := target?_quote block ht hop hlist hplus hcolon
    have htargets := many_read (h := target_advances block) htarget
      (many_declined (target?_none hlist hminus))
    have htext : edgeText directed e ++ ';' :: rest = quote e.source ++ ' ' :: behind := by
      simp [edgeText_eq, behind]
    rw [htext, stmt_quote, chain, hfirst]
    simp only [ok_bind, hop']
    simp [behind, htargets, hread, Stmt.ofChain]

/-! ## The text -/

theorem stmt?_line {block : BlockReader} {line : List Char} {st : Stmt}
    (h : ReadAs block line st) {s rest : List Char}
    (hs : skipBlanks s = .ok (line ++ ';' :: rest)) :
    stmt? block s = .ok (some ([st], ';' :: rest)) := by
  obtain ⟨id, more, rfl⟩ := h.begins
  have hread := h.reads rest
  rw [stmt?, hs]
  obtain ⟨c, v, hv, hc | hc⟩ := quote_head id <;>
  · simp only [hv, hc, List.cons_append, List.append_assoc] at hread ⊢
    simp [hread]

/-- Lines are read in order, each with the `;` behind it. -/
theorem many_lines {block : BlockReader} {lines : List (List Char × Stmt)}
    (h : ∀ l ∈ lines, ReadAs block l.1 l.2) (rest : List Char) {s : List Char}
    (hs : skipBlanks s =
      skipBlanks (lines.flatMap (fun l => statement l.1) ++ '\x7d' :: rest)) :
    ∃ body r, many (stmt? block) (stmt_advances block) s = .ok (body, r) ∧
      body.flatten = lines.map (·.2) ∧ skipBlanks r = .ok ('\x7d' :: rest) := by
  induction lines generalizing s with
  | nil =>
    have hs : skipBlanks s = .ok ('\x7d' :: rest) := hs.trans (skipBlanks_stop (by decide) _)
    have hend : stmt? block s = .ok none := by
      rw [stmt?, hs]
      rfl
    exact ⟨[], s, many_declined hend, rfl, hs⟩
  | cons l lines ih =>
    have hl := h l List.mem_cons_self
    let more := lines.flatMap (fun l => statement l.1) ++ '\x7d' :: rest
    have hline : skipBlanks s = .ok (l.1 ++ ';' :: '\n' :: more) := by
      obtain ⟨id, v, hv⟩ := hl.begins
      have htext : (l :: lines).flatMap (fun l => statement l.1) ++ '\x7d' :: rest =
          ' ' :: ' ' :: (l.1 ++ ';' :: '\n' :: more) := by
        simp [statement, more]
      rw [hs, htext, skipBlanks_space, skipBlanks_space, hv, List.append_assoc]
      exact skipBlanks_quote id _
    have hend : stmt? block (';' :: '\n' :: more) = .ok (some ([], '\n' :: more)) := by
      rw [stmt?, skipBlanks_stop (by decide)]
      rfl
    have hbreak : skipBlanks ('\n' :: more) = skipBlanks more :=
      skipBlanks_cons (by decide) (by decide) _
    obtain ⟨body, r, hr, hbody, hclose⟩ := ih (fun l hl => h l (List.mem_cons_of_mem _ hl)) hbreak
    refine ⟨[l.2] :: [] :: body, r, many_read (stmt?_line hl hline) (many_read hend hr), ?_, hclose⟩
    simp [hbody]

/-- The syntax tree that the canonical text of a graph is read as. -/
def tree (g : Graph) : Document :=
  { strict := g.strict
    directed := g.directed
    name := g.name
    body :=
      g.attrs.entries.map (fun e => .defaults .graph [e]) ++
      g.nodes.map (fun id => .node id ((g.nodeAttrs.get? id).getD ∅).entries) ++
      g.edges.map fun e => .edges [.node e.source, .node e.target] e.attrs.entries }

/-- Every text of a graph has a spelling. -/
structure SpellableGraph (g : Graph) : Prop where
  name : ∀ name, g.name = some name → Spellable name
  nodes : ∀ id ∈ g.nodes, Spellable id
  edges : ∀ e ∈ g.edges, Spellable e.source ∧ Spellable e.target ∧ SpellablePairs e.attrs.entries
  nodeAttrs : ∀ e ∈ g.nodeAttrs.entries, Spellable e.1 ∧ SpellablePairs e.2.entries
  attrs : SpellablePairs g.attrs.entries

theorem word?_append {w : List Char} (hw : w.all isWordPart = true)
    (hstart : (w.head?.map isWordStart) = some true) {c : Char} (hc : isWordPart c = false)
    (rest : List Char) : word? (w ++ c :: rest) = some (w, c :: rest) := by
  cases w with
  | nil => cases hstart
  | cons d w =>
    have hd : isWordStart d = true := by simpa using hstart
    have hw : ∀ x ∈ w, isWordPart x = true := by
      intro x hx
      exact List.all_eq_true.mp hw x (List.mem_cons_of_mem _ hx)
    rw [List.cons_append, word?, if_pos hd, List.takeWhile_append_of_pos hw,
      List.dropWhile_append_of_pos hw]
    simp [hc]

/-- The word that says whether edges have a direction. -/
def kindWord (directed : Bool) : List Char := (if directed then "digraph" else "graph").toList

theorem skipBlanks_kindWord (directed : Bool) (s : List Char) :
    skipBlanks (kindWord directed ++ s) = .ok (kindWord directed ++ s) := by
  cases directed <;> exact skipBlanks_stop (by decide) _

theorem word?_kindWord (directed : Bool) (rest : List Char) :
    word? (kindWord directed ++ ' ' :: rest) = some (kindWord directed, ' ' :: rest) := by
  cases directed <;> exact word?_append (by decide) (by decide) (by decide) rest

theorem keyword?_kindWord (directed : Bool) :
    keyword? (kindWord directed) = some (if directed then .digraph else .graph) := by
  cases directed <;> rfl

theorem kind_kindWord (directed : Bool) (start : List Char) :
    header.kind start (kindWord directed) = .ok directed := by
  rw [header.kind, keyword?_kindWord]
  cases directed <;> rfl

/-- The words before the name are read up to the blank behind them. -/
theorem header_read (strict directed : Bool) (rest : List Char) :
    header ((if strict then "strict " else "").toList ++ (kindWord directed ++ ' ' :: rest)) =
      .ok ((strict, directed), ' ' :: rest) := by
  cases strict with
  | false =>
    show header (kindWord directed ++ ' ' :: rest) = _
    rw [header, skipBlanks_kindWord, ok_bind, word?_kindWord]
    simp only [keyword?_kindWord, kind_kindWord]
    cases directed <;> rfl
  | true =>
    let s := kindWord directed ++ ' ' :: rest
    have hskip : skipBlanks ("strict".toList ++ ' ' :: s) = .ok ("strict".toList ++ ' ' :: s) :=
      skipBlanks_stop (by decide) _
    have hword : word? ("strict".toList ++ ' ' :: s) = some ("strict".toList, ' ' :: s) :=
      word?_append (by decide) (by decide) (by decide) _
    have hstrict : keyword? "strict".toList = some .strict := rfl
    show header ("strict".toList ++ ' ' :: s) = _
    rw [header, hskip, ok_bind, hword]
    simp only [hstrict, skipBlanks_space, s, skipBlanks_kindWord, ok_bind, word?_kindWord,
      kind_kindWord]
    rfl

theorem statements_read {block : BlockReader} {lines : List (List Char × Stmt)}
    (h : ∀ l ∈ lines, ReadAs block l.1 l.2) (rest : List Char) :
    statements block ('\n' :: (lines.flatMap (fun l => statement l.1) ++ '\x7d' :: rest)) =
      .ok (lines.map (·.2), rest) := by
  obtain ⟨body, r, hr, hbody, hclose⟩ := many_lines h rest
    (skipBlanks_cons (c := '\n') (by decide) (by decide) _)
  rw [statements, hr]
  simp [hclose, symbol, hbody]

/-- The lines of the text with the statements on them. -/
def graphLines (g : Graph) : List (List Char × Stmt) :=
  g.attrs.entries.map (fun e => (pair e, .defaults .graph [e])) ++
  g.nodes.map (fun id => (nodeText g id, .node id ((g.nodeAttrs.get? id).getD ∅).entries)) ++
  g.edges.map fun e =>
    (edgeText g.directed e, .edges [.node e.source, .node e.target] e.attrs.entries)

theorem graphLines_stmts (g : Graph) : (graphLines g).map (·.2) = (tree g).body := by
  simp only [graphLines, tree, List.map_append, List.map_map]
  rfl

theorem graphLines_text (g : Graph) : (graphLines g).flatMap (fun l => statement l.1) =
    (g.attrs.entries.flatMap fun e => statement (pair e)) ++
    (g.nodes.flatMap fun id => statement (nodeText g id)) ++
    (g.edges.flatMap fun e => statement (edgeText g.directed e)) := by
  simp [graphLines, List.flatMap_map]

theorem spellable_nodeAttrs {g : Graph} (h : SpellableGraph g) (id : String) :
    SpellablePairs ((g.nodeAttrs.get? id).getD ∅).entries := by
  cases hget : g.nodeAttrs.get? id with
  | none => intro e he; cases he
  | some attrs => exact (h.nodeAttrs _ (Table.mem_entries.mpr hget)).2

theorem graphLines_readAs {g : Graph} (h : SpellableGraph g) (block : BlockReader) :
    ∀ l ∈ graphLines g, ReadAs block l.1 l.2 := by
  intro l hl
  simp only [graphLines, List.mem_append, List.mem_map] at hl
  rcases hl with (⟨e, he, rfl⟩ | ⟨id, hid, rfl⟩) | ⟨e, he, rfl⟩
  · exact readAs_attr block (h.attrs e he)
  · exact readAs_node block (h.nodes id hid) (spellable_nodeAttrs h id)
  · obtain ⟨hs, ht, hattrs⟩ := h.edges e he
    exact readAs_edge block hs ht hattrs g.directed

/-- What stands between the words of the header and the brace. -/
def nameText : Option String → List Char
  | some name => ' ' :: quote name
  | none => []

theorem graphText_eq (g : Graph) : graphText g =
    (if g.strict then "strict " else "").toList ++ (kindWord g.directed ++
      (nameText g.name ++ ' ' :: '\x7b' :: '\n' ::
        ((graphLines g).flatMap (fun l => statement l.1) ++ ['\x7d', '\n']))) := by
  simp only [graphText, headerText, graphLines_text, kindWord, List.append_assoc]
  rfl

theorem id?_brace (s : List Char) : id? ('\x7b' :: s) = .ok none := rfl

/-- The canonical text is read as the tree of its graph. -/
theorem document_graphText {g : Graph} (h : SpellableGraph g) :
    document (graphText g) = .ok (tree g) := by
  let body := '\n' :: ((graphLines g).flatMap (fun l => statement l.1) ++ ['\x7d', '\n'])
  have hbrace : skipBlanks ('\x7b' :: body) = .ok ('\x7b' :: body) := skipBlanks_stop (by decide) _
  have hspace : skipBlanks (' ' :: '\x7b' :: body) = .ok ('\x7b' :: body) :=
    (skipBlanks_space _).trans hbrace
  have hbody : (block (maxNesting + 1)).read body = .ok ((tree g).body, ['\n']) := by
    rw [← graphLines_stmts]
    exact statements_read (graphLines_readAs h _) ['\n']
  have hend : skipBlanks ['\n'] = .ok [] := by
    rw [skipBlanks_cons (by decide) (by decide), if_pos (by decide), skipBlanks.eq_def]
  rw [graphText_eq]
  cases hname : g.name with
  | none =>
    show document (_ ++ (kindWord g.directed ++ ' ' :: '\x7b' :: body)) = _
    rw [document, header_read]
    simp [hspace, id?_brace, hbrace, symbol, hbody, hend, tree, hname]
  | some name =>
    have hid := id?_quote (h.name name hname) (detached_of_cons hspace (by decide))
    have hquote : skipBlanks (' ' :: (quote name ++ ' ' :: '\x7b' :: body)) =
        .ok (quote name ++ ' ' :: '\x7b' :: body) :=
      (skipBlanks_space _).trans (skipBlanks_quote name _)
    show document (_ ++ (kindWord g.directed ++ ' ' :: (quote name ++ ' ' :: '\x7b' :: body))) = _
    rw [document, header_read]
    simp [hquote, hid, hspace, symbol, hbody, hend, tree, hname]

end Tiered.Dot
