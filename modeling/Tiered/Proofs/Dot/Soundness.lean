import Tiered.Dot.Parser.Document
import Tiered.Proofs.Dot.Lexing

/-!
# What is read is a phrase of the grammar

* `id_sound`, `attrLists_sound`, `endpoint_sound`, `stmt_sound`: each reader reads the tokens of a
  phrase, and returns what the phrase stands for;
* `block_sound`: blocks, by induction on how deep they may lie within one another;
* `document_sound`: a document that is read is a syntax tree of its text.
-/
namespace Tiered.Dot

namespace Consumes

variable {us vs : List Token} {s t u r : List Char}

theorem trans (h : Consumes us s t) (h' : Consumes vs t r) : Consumes (us ++ vs) s r := by
  induction h with
  | refl => exact h'
  | gap hp hlongest _ ih => exact .gap hp hlongest (ih h')
  | token hk hlongest _ ih => exact .token hk hlongest (ih h')

theorem skip (hs : skipBlanks s = .ok u) (h : Consumes us u r) : Consumes us s r :=
  (blanks hs).trans h

theorem first {k : Token} (hs : skipBlanks s = .ok u) (hk : token? u = some (k, r)) :
    Consumes [k] s r := by
  apply skip hs
  cases u with
  | nil => cases hk
  | cons c u =>
    obtain ⟨p, he, hp⟩ := token_sound (head_of_skipBlanks hs) hk
    rw [he] at hk ⊢
    exact .token hp ((longest_iff_token? hp r).mpr hk) .refl

theorem symbol {c : Char} (hs : skipBlanks s = .ok (c :: r)) (hc : c ∈ symbols) :
    Consumes [.symbol c] s r := first hs (token?_symbol hc r)

theorem word {w : List Char} (hs : skipBlanks s = .ok u) (hw : word? u = some (w, r)) :
    Consumes [.word w] s r := first hs (word?_iff.mp hw)

end Consumes

/-! ## Ids -/

theorem joined_sound {s v r : List Char} (h : joined s = .ok (v, r)) :
    ∃ us, IsJoined us v ∧ Consumes us s r := by
  fun_induction joined s generalizing v with
  | case1 | case2 | case3 | case5 => cases h
  | case4 s t hs u ht value behind hu ih =>
    obtain ⟨⟨w, r'⟩, hj, he⟩ := map_eq_ok.mp h
    cases he
    obtain ⟨us, hus, hc⟩ := ih hj
    have hquoted : token? ('"' :: u) = some (.quoted value, behind) := by simp [token?, hu]
    have hplus := Consumes.symbol hs (by decide)
    exact ⟨_, .cons hus, hplus.trans ((Consumes.first ht hquoted).trans hc)⟩
  | case6 =>
    cases h
    exact ⟨[], .nil, .refl⟩

theorem id?_sound {s u r : List Char} {a : String} (hs : skipBlanks s = .ok u)
    (h : id? u = .ok (some (a, r))) : ∃ us, IsId us a ∧ Consumes us s r := by
  obtain ⟨t, q, ht⟩ := token?_of_id? h
  have hc := Consumes.first hs ht
  rw [id?_of_token? ht] at h
  cases t with
  | quoted v =>
    obtain ⟨⟨w, r'⟩, hj, he⟩ := map_eq_ok.mp h
    cases he
    obtain ⟨us, hus, hc'⟩ := joined_sound hj
    exact ⟨_, .quoted hus, hc.trans hc'⟩
  | markup v =>
    cases h
    exact ⟨_, .markup, hc⟩
  | numeral n =>
    cases h
    exact ⟨_, .numeral, hc⟩
  | word w =>
    simp only [idFrom] at h
    split at h
    · cases h
    · rename_i hword
      cases h
      exact ⟨_, .word (by simpa using hword), hc⟩
  | symbol | edgeOp => cases h

theorem id?_of_id {wanted : Wanted} {u : List Char} {q : Taken String} (h : id wanted u = .ok q) :
    id? u = .ok (some q) := by
  simp only [id, bind_eq_ok] at h
  obtain ⟨read, hread, h⟩ := h
  split at h
  · cases h
    exact hread
  · cases h

theorem symbol_eq_ok {c : Char} {wanted : Wanted} {u r : List Char}
    (h : symbol c wanted u = .ok r) : u = c :: r := by
  unfold symbol at h
  split at h
  · split at h
    · rename_i hc
      cases h
      rw [hc]
    · cases h
  · cases h

theorem id_sound {wanted : Wanted} {s u : List Char} {q : Taken String}
    (hs : skipBlanks s = .ok u) (h : id wanted u = .ok q) :
    ∃ us, IsId us q.1 ∧ Consumes us s q.2 := id?_sound hs (id?_of_id h)

theorem skipAttachments_sound {count : Nat} {s r : List Char}
    (h : skipAttachments count s = .ok r) : ∃ us, IsAttachments count us ∧ Consumes us s r := by
  induction count generalizing s with
  | zero =>
    cases h
    exact ⟨[], .none, .refl⟩
  | succ count ih =>
    simp only [skipAttachments, bind_eq_ok] at h
    obtain ⟨u, hu, h⟩ := h
    split at h
    · simp only [bind_eq_ok] at h
      obtain ⟨v, hv, attachment, hid, h⟩ := h
      obtain ⟨us, hus, hc⟩ := id_sound hv hid
      obtain ⟨vs, hvs, hc'⟩ := ih h
      exact ⟨_, .cons hus hvs, (Consumes.symbol hu (by decide)).trans (hc.trans hc')⟩
    · cases h
      exact ⟨[], .none, .refl⟩

theorem nodeId_sound {s u r : List Char} {a : String} (hs : skipBlanks s = .ok u)
    (h : nodeId? u = .ok (some (a, r))) : ∃ us, IsNodeId us a ∧ Consumes us s r := by
  simp only [nodeId?, bind_eq_ok] at h
  obtain ⟨read, hread, h⟩ := h
  split at h
  · cases h
  · simp only [bind_eq_ok] at h
    obtain ⟨q, hq, h⟩ := h
    cases h
    obtain ⟨us, hus, hc⟩ := id?_sound hs hread
    obtain ⟨vs, hvs, hc'⟩ := skipAttachments_sound hq
    exact ⟨_, .mk hus hvs, hc.trans hc'⟩

/-! ## Repetition -/

/-- What a reader reads are phrases. -/
def ReadsOnly {α : Type} (item : Reader? α) (Phrase : List Token → α → Prop) : Prop :=
  ∀ s a r, item s = .ok (some (a, r)) → ∃ us, Phrase us a ∧ Consumes us s r

theorem many_sound {α : Type} {item : Reader? α} {Phrase : List Token → α → Prop}
    (hitem : ReadsOnly item Phrase) (hadv : Advances item) {s : List Char} {q : Taken (List α)}
    (h : many item hadv s = .ok q) : ∃ us, Many Phrase us q.1 ∧ Consumes us s q.2 := by
  fun_induction many item hadv s generalizing q with
  | case1 | case3 => cases h
  | case2 =>
    cases h
    exact ⟨[], .nil, .refl⟩
  | case4 s a behind hread as' behind' hrest ih =>
    cases h
    obtain ⟨us, hus, hc⟩ := hitem _ _ _ hread
    obtain ⟨vs, hvs, hc'⟩ := ih hrest
    exact ⟨_, .cons hus hvs, hc.trans hc'⟩

/-! ## Attributes -/

theorem skipSeparator_sound {s r : List Char} (h : skipSeparator s = .ok r) :
    ∃ us, IsSeparator us ∧ Consumes us s r := by
  simp only [skipSeparator, bind_eq_ok] at h
  obtain ⟨u, hu, h⟩ := h
  split at h
  · cases h
    exact ⟨_, .comma, .symbol hu (by decide)⟩
  · cases h
    exact ⟨_, .semicolon, .symbol hu (by decide)⟩
  · cases h
    exact ⟨_, .none, .blanks hu⟩

theorem attr_sound : ReadsOnly attr? IsAttr := by
  intro s a r h
  simp only [attr?, bind_eq_ok] at h
  obtain ⟨u, hu, h⟩ := h
  split at h
  · cases h
  · simp only [bind_eq_ok] at h
    obtain ⟨key, hkey, s₂, hs₂, s₃, hs₃, s₄, hs₄, value, hvalue, s₅, hs₅, h⟩ := h
    cases h
    obtain ⟨us, hus, hc⟩ := id_sound hu hkey
    obtain ⟨vs, hvs, hc'⟩ := id_sound hs₄ hvalue
    obtain ⟨ws, hws, hc''⟩ := skipSeparator_sound hs₅
    rw [symbol_eq_ok hs₃] at hs₂
    exact ⟨_, .mk hus hvs hws,
      hc.trans ((Consumes.symbol hs₂ (by decide)).trans (hc'.trans hc''))⟩

theorem bracket_sound : ReadsOnly bracket? IsBracket := by
  intro s a r h
  simp only [bracket?, bind_eq_ok] at h
  obtain ⟨u, hu, h⟩ := h
  split at h
  · simp only [bind_eq_ok] at h
    obtain ⟨attrs, hattrs, s₂, hs₂, s₃, hs₃, h⟩ := h
    cases h
    obtain ⟨us, hus, hc⟩ := many_sound attr_sound _ hattrs
    rw [symbol_eq_ok hs₃] at hs₂
    exact ⟨_, .mk hus,
      (Consumes.symbol hu (by decide)).trans (hc.trans (Consumes.symbol hs₂ (by decide)))⟩
  · cases h

theorem attrLists_sound {s : List Char} {q : Taken AttrList} (h : attrLists s = .ok q) :
    ∃ us, IsAttrLists us q.1 ∧ Consumes us s q.2 := by
  simp only [attrLists, bind_eq_ok] at h
  obtain ⟨lists, hlists, h⟩ := h
  cases h
  obtain ⟨us, hus, hc⟩ := many_sound bracket_sound _ hlists
  exact ⟨us, .mk hus, hc⟩

/-! ## Endpoints and statements -/

section Block

variable {b : BlockReader} {Block : List Token → List Stmt → Prop}

/-- What a reader of blocks reads behind an opening brace makes a block with it. -/
def BlockReader.ReadsOnly (b : BlockReader) (Block : List Token → List Stmt → Prop) : Prop :=
  ∀ s q, b.read s = .ok q → ∃ us, Block (.symbol '\x7b' :: us) q.1 ∧ Consumes us s q.2

theorem skipName_sound {s u r : List Char} (hs : skipBlanks s = .ok u)
    (h : skipName u = .ok r) :
    ∃ us, (us = [] ∨ ∃ name, IsId us name) ∧ Consumes us s r := by
  simp only [skipName, bind_eq_ok] at h
  obtain ⟨read, hread, h⟩ := h
  split at h
  · cases h
    obtain ⟨us, hus, hc⟩ := id?_sound hs hread
    exact ⟨us, .inr ⟨_, hus⟩, hc⟩
  · cases h
    exact ⟨[], .inl rfl, .blanks hs⟩

theorem subgraph_sound (hb : b.ReadsOnly Block) {s u r : List Char} {body : List Stmt}
    (hs : skipBlanks s = .ok u) (h : subgraph? b u = .ok (some (body, r))) :
    ∃ us, IsSubgraph Block us body ∧ Consumes us s r := by
  simp only [subgraph?] at h
  split at h
  case h_1 w behind hword =>
    split at h
    · rename_i hw
      simp only [bind_eq_ok] at h
      obtain ⟨s₁, hs₁, s₂, hs₂, s₃, hs₃, s₄, hs₄, q, hq, h⟩ := h
      cases h
      have hc := Consumes.word hs hword
      obtain ⟨us, hus, hc'⟩ := skipName_sound hs₁ hs₂
      obtain ⟨vs, hvs, hc''⟩ := hb _ _ hq
      rw [symbol_eq_ok hs₄] at hs₃
      have hblock := (Consumes.symbol hs₃ (by decide)).trans hc''
      rcases hus with rfl | ⟨name, hname⟩
      · exact ⟨_, .headed hw hvs, hc.trans (hc'.trans hblock)⟩
      · exact ⟨_, .named hw hname hvs, hc.trans (hc'.trans hblock)⟩
    · cases h
  case h_2 =>
    split at h
    · simp only [bind_eq_ok] at h
      obtain ⟨q, hq, h⟩ := h
      cases h
      obtain ⟨us, hus, hc⟩ := hb _ _ hq
      exact ⟨_, .bare hus, (Consumes.symbol hs (by decide)).trans hc⟩
    · cases h

theorem endpoint_sound (hb : b.ReadsOnly Block) {s u r : List Char} {e : Endpoint}
    (hs : skipBlanks s = .ok u) (h : endpoint? b u = .ok (some (e, r))) :
    ∃ us, IsEndpoint Block us e ∧ Consumes us s r := by
  simp only [endpoint?, bind_eq_ok] at h
  obtain ⟨block, hblock, h⟩ := h
  split at h
  · cases h
    obtain ⟨us, hus, hc⟩ := subgraph_sound hb hs hblock
    exact ⟨us, .block hus, hc⟩
  · simp only [bind_eq_ok] at h
    obtain ⟨node, hnode, h⟩ := h
    split at h
    · cases h
      obtain ⟨us, hus, hc⟩ := nodeId_sound hs hnode
      exact ⟨us, .node hus, hc⟩
    · cases h

theorem target_sound (hb : b.ReadsOnly Block) : ReadsOnly (target? b) (IsTarget Block) := by
  intro s a r h
  simp only [target?, bind_eq_ok] at h
  obtain ⟨u, hu, h⟩ := h
  split at h
  case h_1 => cases h
  case h_2 behind hop =>
    simp only [bind_eq_ok] at h
    obtain ⟨v, hv, h⟩ := h
    split at h
    · cases h
    · cases h
    · rename_i read _ hread
      cases h
      obtain ⟨us, hus, hc⟩ := endpoint_sound hb hv hread
      exact ⟨_, .mk hus, (Consumes.first hu (edgeOp?_iff.mp hop)).trans hc⟩

/-- A chain of endpoints behind its first, with its attributes. -/
theorem ofChain_sound {us vs ws : List Token} {first : Endpoint} {targets : List Endpoint}
    {attrs : AttrList} (hus : IsEndpoint Block us first) (hvs : Many (IsTarget Block) vs targets)
    (hws : IsAttrLists ws attrs) :
    IsStmt Block (us ++ (vs ++ ws)) (.ofChain first targets attrs) := by
  cases hvs with
  | cons ht hts =>
    cases first with
    | node => exact .edges hus (.cons ht hts) hws
    | block => exact .edges hus (.cons ht hts) hws
  | nil =>
    cases hus with
    | node hid => exact .node hid hws
    | block hblock => exact .block hblock hws

theorem chain_sound (hb : b.ReadsOnly Block) {s u : List Char} {q : Taken Stmt}
    (hs : skipBlanks s = .ok u) (h : chain b u = .ok q) :
    ∃ us, IsStmt Block us q.1 ∧ Consumes us s q.2 := by
  simp only [chain, bind_eq_ok] at h
  obtain ⟨first, hfirst, h⟩ := h
  split at h
  case h_1 => cases h
  case h_2 first behind =>
    simp only [bind_eq_ok] at h
    obtain ⟨v, hv, h⟩ := h
    obtain ⟨us, hus, hc⟩ := endpoint_sound hb hs hfirst
    split at h
    · rename_i key t
      simp only [bind_eq_ok] at h
      obtain ⟨s₂, hs₂, value, hvalue, h⟩ := h
      cases h
      obtain ⟨vs, hvs, hc'⟩ := id_sound hs₂ hvalue
      cases hus with
      | node hid =>
        exact ⟨_, .setting hid hvs, hc.trans ((Consumes.symbol hv (by decide)).trans hc')⟩
    · simp only [bind_eq_ok] at h
      obtain ⟨targets, htargets, attrs, hattrs, h⟩ := h
      cases h
      obtain ⟨vs, hvs, hc'⟩ := many_sound (target_sound hb) _ htargets
      obtain ⟨ws, hws, hc''⟩ := attrLists_sound hattrs
      exact ⟨_, ofChain_sound hus hvs hws, hc.trans ((hc'.skip hv).trans hc'')⟩

theorem stmt_sound (hb : b.ReadsOnly Block) {s u : List Char} {q : Taken Stmt}
    (hs : skipBlanks s = .ok u) (h : stmt b u = .ok q) :
    ∃ us, IsStmt Block us q.1 ∧ Consumes us s q.2 := by
  have hdefaults : ∀ (target : Target) {w behind : List Char},
      word? u = some (w, behind) → keyword? w = some target.keyword →
      defaults target behind = .ok q → ∃ us, IsStmt Block us q.1 ∧ Consumes us s q.2 := by
    intro target w behind hword hw h
    simp only [defaults, bind_eq_ok] at h
    obtain ⟨attrs, hattrs, h⟩ := h
    cases h
    obtain ⟨us, hus, hc⟩ := attrLists_sound hattrs
    exact ⟨_, .defaults hw hus, (Consumes.word hs hword).trans hc⟩
  unfold stmt at h
  split at h
  case h_1 => exact chain_sound hb hs h
  case h_2 w behind hword =>
    split at h
    case h_1 hw => exact hdefaults .graph hword hw h
    case h_2 hw => exact hdefaults .node hword hw h
    case h_3 hw => exact hdefaults .edge hword hw h
    case h_4 | h_5 => cases h
    case h_6 | h_7 => exact chain_sound hb hs h

theorem item_sound (hb : b.ReadsOnly Block) : ReadsOnly (stmt? b) (IsItem Block) := by
  intro s a r h
  simp only [stmt?, bind_eq_ok] at h
  obtain ⟨u, hu, h⟩ := h
  split at h
  · cases h
  · cases h
  · cases h
    exact ⟨_, .semicolon, .symbol hu (by decide)⟩
  · simp only [bind_eq_ok] at h
    obtain ⟨q, hq, h⟩ := h
    cases h
    obtain ⟨us, hus, hc⟩ := stmt_sound hb hu hq
    exact ⟨us, .stmt hus, hc⟩

theorem statements_sound (hb : b.ReadsOnly Block) {s : List Char} {q : Taken (List Stmt)}
    (h : statements b s = .ok q) :
    ∃ us, Braced Block (.symbol '\x7b' :: us) q.1 ∧ Consumes us s q.2 := by
  simp only [statements, bind_eq_ok] at h
  obtain ⟨items, hitems, s₂, hs₂, s₃, hs₃, h⟩ := h
  cases h
  obtain ⟨us, hus, hc⟩ := many_sound (item_sound hb) _ hitems
  rw [symbol_eq_ok hs₃] at hs₂
  exact ⟨_, .mk hus, hc.trans (Consumes.symbol hs₂ (by decide))⟩

end Block

theorem block_sound (depth : Nat) : (block depth).ReadsOnly (IsBlock depth) := by
  induction depth with
  | zero =>
    intro s q h
    cases h
  | succ depth ih =>
    intro s q h
    exact statements_sound ih h

/-! ## Documents -/

theorem kind_sound {start w : List Char} {directed : Bool}
    (h : header.kind start w = .ok directed) : IsKind (.word w) directed := by
  unfold header.kind at h
  split at h
  · rename_i hw
    cases h
    exact .digraph hw
  · rename_i hw
    cases h
    exact .graph hw
  · cases h

theorem header_sound {s : List Char} {q : Taken (Bool × Bool)} (h : header s = .ok q) :
    ∃ us k, IsStrict us q.1.1 ∧ IsKind k q.1.2 ∧ Consumes (us ++ [k]) s q.2 := by
  simp only [header, bind_eq_ok] at h
  obtain ⟨u, hu, h⟩ := h
  split at h
  · rename_i w behind hword
    have hc := Consumes.word hu hword
    split at h
    · rename_i hw
      simp only [bind_eq_ok] at h
      obtain ⟨v, hv, h⟩ := h
      split at h
      · rename_i w' behind' hword'
        simp only [bind_eq_ok] at h
        obtain ⟨directed, hkind, h⟩ := h
        cases h
        exact ⟨_, _, .yes hw, kind_sound hkind, hc.trans (Consumes.word hv hword')⟩
      · cases h
    · simp only [bind_eq_ok] at h
      obtain ⟨directed, hkind, h⟩ := h
      cases h
      exact ⟨_, _, .no, kind_sound hkind, hc⟩
  · cases h

theorem document_sound {s : List Char} {d : Document} (h : document s = .ok d) :
    IsDocument s d := by
  simp only [document, bind_eq_ok] at h
  obtain ⟨⟨⟨strict, directed⟩, s₁⟩, hheader, s₂, hs₂, read, hread, s₃, hs₃, s₄, hs₄, q, hq, s₅, hs₅,
    h⟩ := h
  obtain ⟨us, k, hus, hk, hc⟩ := header_sound hheader
  obtain ⟨vs, hvs, hc'⟩ : ∃ vs, IsName vs (read.map Prod.fst) ∧
      Consumes vs s₁ ((read.map Prod.snd).getD s₂) := by
    cases read with
    | none => exact ⟨[], .none, .blanks hs₂⟩
    | some r =>
      obtain ⟨vs, hvs, hc'⟩ := id?_sound hs₂ hread
      exact ⟨vs, .some hvs, hc'⟩
  have hs₃ : skipBlanks ((read.map Prod.snd).getD s₂) = .ok s₃ := by
    cases read <;> exact hs₃
  obtain ⟨ws, hws, hc''⟩ := block_sound _ _ _ hq
  rw [symbol_eq_ok hs₄] at hs₃
  have hbrace := Consumes.symbol hs₃ (by decide)
  cases s₅ with
  | cons c s₅ => cases h
  | nil =>
    have hd : d = ⟨strict, directed, read.map Prod.fst, q.1⟩ := by
      cases read <;> (cases h; rfl)
    have hall := (hc.trans (hc'.trans (hbrace.trans hc''))).lexes (lexes_nil_iff.mpr hs₅)
    rw [hd]
    refine ⟨_, hall, ?_⟩
    have hgraph := IsGraph.mk hus hk hvs hws
    rw [List.append_nil, List.append_assoc]
    exact hgraph

end Tiered.Dot
