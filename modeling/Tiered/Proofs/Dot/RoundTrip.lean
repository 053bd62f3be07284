import Tiered.Dot.Reader
import Tiered.Proofs.Dot.Canonical

/-!
# Printing and reading

* `ofDot_toDot`: the canonical text of a canonical graph is read as that graph;
* `canonical_ofDot`: every text that is read gives a canonical graph, so that printing and reading
  it once more changes nothing.
-/
namespace Tiered.Dot

/-! ## Every text that is read has a spelling -/

/-- Whatever is read is as `P` says. -/
def Yields {α : Type} (P : α → Prop) (item : Reader? α) : Prop :=
  ∀ s r, item s = .ok (some r) → P r.1

theorem many_yields {α : Type} {P : α → Prop} {item : Reader? α} (h : Advances item)
    (hitem : Yields P item) {s : List Char} {r : Taken (List α)} (hs : many item h s = .ok r) :
    ∀ a ∈ r.1, P a := by
  fun_induction many item h s generalizing r with
  | case1 => cases hs
  | case2 => cases hs; intro a ha; cases ha
  | case3 => cases hs
  | case4 s a rest hread as' behind' hrest ih =>
    cases hs
    intro x hx
    rcases List.mem_cons.mp hx with rfl | hx
    · exact hitem _ _ hread
    · exact ih (r := (as', behind')) hrest x hx

theorem spellable_id {wanted : Wanted} {s : List Char} {r : Taken String}
    (h : id wanted s = .ok r) : Spellable r.1 := by
  simp only [id, bind_eq_ok] at h
  obtain ⟨read, hread, h⟩ := h
  split at h
  · cases h; exact spellable_of_id? hread
  · cases h

theorem attr_yields : Yields (fun e => Spellable e.1 ∧ Spellable e.2) attr? := by
  intro s r h
  simp only [attr?, bind_eq_ok] at h
  obtain ⟨s₁, h₁, h⟩ := h
  split at h
  · cases h
  · simp only [bind_eq_ok] at h
    obtain ⟨key, hkey, s₃, h₃, s₄, h₄, s₅, h₅, value, hvalue, s₇, h₇, h⟩ := h
    cases h
    exact ⟨spellable_id hkey, spellable_id hvalue⟩

theorem bracket_yields : Yields SpellablePairs bracket? := by
  intro s r h
  simp only [bracket?, bind_eq_ok] at h
  obtain ⟨s₁, h₁, h⟩ := h
  split at h
  · simp only [bind_eq_ok] at h
    obtain ⟨attrs, hattrs, s₃, h₃, s₄, h₄, h⟩ := h
    cases h
    have := many_yields _ attr_yields hattrs
    exact this
  · cases h

theorem spellable_attrLists {s : List Char} {r : Taken AttrList} (h : attrLists s = .ok r) :
    SpellablePairs r.1 := by
  simp only [attrLists, bind_eq_ok] at h
  obtain ⟨lists, hlists, h⟩ := h
  cases h
  intro e he
  obtain ⟨list, hlist, he⟩ := List.mem_flatten.mp he
  exact many_yields _ bracket_yields hlists list hlist e he

/-- The block reader only reads statements whose texts have spellings. -/
def YieldsStmts (block : BlockReader) : Prop :=
  ∀ s r, block.read s = .ok r → SpellableStmts r.1

theorem nodeId_yields : Yields Spellable nodeId? := by
  intro s r h
  simp only [nodeId?, bind_eq_ok] at h
  obtain ⟨node, hnode, h⟩ := h
  split at h
  · cases h
  · simp only [bind_eq_ok] at h
    obtain ⟨behind, h₂, h⟩ := h
    cases h
    exact spellable_of_id? hnode

theorem subgraph_yields {block : BlockReader} (hb : YieldsStmts block) :
    Yields SpellableStmts (subgraph? block) := by
  intro s r h
  simp only [subgraph?] at h
  split at h
  · split at h
    · simp only [bind_eq_ok] at h
      obtain ⟨s₁, h₁, s₂, h₂, s₃, h₃, s₄, h₄, body, hbody, h⟩ := h
      cases h
      exact hb _ _ hbody
    · cases h
  · split at h
    · simp only [bind_eq_ok] at h
      obtain ⟨body, hbody, h⟩ := h
      cases h
      exact hb _ _ hbody
    · cases h

theorem endpoint_yields {block : BlockReader} (hb : YieldsStmts block) :
    Yields SpellableEnd (endpoint? block) := by
  intro s r h
  simp only [endpoint?, bind_eq_ok] at h
  obtain ⟨body, hbody, h⟩ := h
  split at h
  · cases h
    exact subgraph_yields hb _ _ hbody
  · simp only [bind_eq_ok] at h
    obtain ⟨node, hnode, h⟩ := h
    split at h
    · cases h
      exact nodeId_yields _ _ hnode
    · cases h

theorem target_yields {block : BlockReader} (hb : YieldsStmts block) :
    Yields SpellableEnd (target? block) := by
  intro s r h
  simp only [target?, bind_eq_ok] at h
  obtain ⟨s₁, h₁, h⟩ := h
  split at h
  · cases h
  · simp only [bind_eq_ok] at h
    obtain ⟨s₂, h₂, h⟩ := h
    split at h
    · cases h
    · cases h
    · next hread =>
      cases h
      exact endpoint_yields hb _ _ hread

theorem spellableEnds_of_forall {ends : List Endpoint} (h : ∀ e ∈ ends, SpellableEnd e) :
    SpellableEnds ends := by
  induction ends with
  | nil => exact trivial
  | cons e ends ih =>
    exact ⟨h e List.mem_cons_self, ih fun f hf => h f (List.mem_cons_of_mem _ hf)⟩

theorem spellableStmts_of_forall {stmts : List Stmt} (h : ∀ s ∈ stmts, SpellableStmt s) :
    SpellableStmts stmts := by
  induction stmts with
  | nil => exact trivial
  | cons s stmts ih =>
    exact ⟨h s List.mem_cons_self, ih fun t ht => h t (List.mem_cons_of_mem _ ht)⟩

theorem spellable_ofChain {first : Endpoint} {targets : List Endpoint} {attrs : AttrList}
    (hfirst : SpellableEnd first) (htargets : ∀ e ∈ targets, SpellableEnd e)
    (hattrs : SpellablePairs attrs) : SpellableStmt (.ofChain first targets attrs) := by
  unfold Stmt.ofChain
  split
  · exact ⟨hfirst, hattrs⟩
  · exact hfirst
  · exact ⟨⟨hfirst, spellableEnds_of_forall htargets⟩, hattrs⟩

theorem spellable_chain {block : BlockReader} (hb : YieldsStmts block) {s : List Char}
    {r : Taken Stmt} (h : chain block s = .ok r) : SpellableStmt r.1 := by
  simp only [chain, bind_eq_ok] at h
  obtain ⟨first, hfirst, h⟩ := h
  split at h
  case h_1 => cases h
  case h_2 first behind =>
    simp only [bind_eq_ok] at h
    obtain ⟨s₂, h₂, h⟩ := h
    have hend := endpoint_yields hb _ _ hfirst
    split at h
    · simp only [bind_eq_ok] at h
      obtain ⟨s₃, h₃, value, hvalue, h⟩ := h
      cases h
      intro e he
      rw [List.mem_singleton.mp he]
      exact ⟨hend, spellable_id hvalue⟩
    · simp only [bind_eq_ok] at h
      obtain ⟨targets, htargets, attrs, hattrs, h⟩ := h
      cases h
      exact spellable_ofChain hend (many_yields _ (target_yields hb) htargets)
        (spellable_attrLists hattrs)

theorem spellable_defaults {target : Target} {s : List Char} {r : Taken Stmt}
    (h : defaults target s = .ok r) : SpellableStmt r.1 := by
  simp only [defaults, bind_eq_ok] at h
  obtain ⟨attrs, hattrs, h⟩ := h
  cases h
  exact spellable_attrLists hattrs

theorem spellable_stmt {block : BlockReader} (hb : YieldsStmts block) {s : List Char}
    {r : Taken Stmt} (h : stmt block s = .ok r) : SpellableStmt r.1 := by
  unfold stmt at h
  split at h
  case h_1 => exact spellable_chain hb h
  case h_2 =>
    split at h
    case h_1 | h_2 | h_3 => exact spellable_defaults h
    case h_4 | h_5 => cases h
    case h_6 | h_7 => exact spellable_chain hb h

theorem stmt_yields {block : BlockReader} (hb : YieldsStmts block) :
    Yields (fun stmts => ∀ s ∈ stmts, SpellableStmt s) (stmt? block) := by
  intro s r h
  simp only [stmt?, bind_eq_ok] at h
  obtain ⟨s₁, h₁, h⟩ := h
  split at h
  · cases h
  · cases h
  · cases h
    intro s hs
    cases hs
  · simp only [bind_eq_ok] at h
    obtain ⟨st, hst, h⟩ := h
    cases h
    intro s hs
    rw [List.mem_singleton.mp hs]
    exact spellable_stmt hb hst

theorem statements_yields {b : BlockReader} (hb : YieldsStmts b) {s : List Char}
    {r : Taken (List Stmt)} (h : statements b s = .ok r) : SpellableStmts r.1 := by
  simp only [statements, bind_eq_ok] at h
  obtain ⟨body, hbody, s₂, h₂, s₃, h₃, h⟩ := h
  cases h
  apply spellableStmts_of_forall
  intro st hst
  obtain ⟨stmts, hmem, hst⟩ := List.mem_flatten.mp hst
  exact many_yields _ (stmt_yields hb) hbody stmts hmem st hst

theorem block_yields (depth : Nat) : YieldsStmts (block depth) := by
  induction depth with
  | zero => intro s r h; cases h
  | succ depth ih => intro s r h; exact statements_yields ih h

theorem canonical_of_document {s : List Char} {d : Document} (h : document s = .ok d) :
    d.graph.Canonical := by
  simp only [document, bind_eq_ok] at h
  obtain ⟨header, h₁, s₂, h₂, name, hname, s₃, h₃, s₄, h₄, body, hbody, s₅, h₅, h⟩ := h
  have hstmts := block_yields _ _ _ hbody
  split at h
  · cases h
    refine canonical_graph ?_ hstmts
    intro n hn
    cases name with
    | none => cases hn
    | some read => cases hn; exact spellable_of_id? hname
  · cases h

end Dot

namespace Graph

open Dot (document_graphText graph_tree canonical_of_document)

theorem document_toDot {g : Graph} (h : g.Canonical) :
    Dot.document g.toDot.toList = .ok (Dot.tree g) := by
  rw [toDot, String.toList_ofList]
  exact document_graphText h.spellable

theorem ofDot_of_document {source : String} {d : Dot.Document}
    (h : Dot.document source.toList = .ok d) : Graph.ofDot source = .ok d.graph := by
  rw [ofDot, h]

theorem canonical_of_ofDot {source : String} {g : Graph} (h : Graph.ofDot source = .ok g) :
    g.Canonical := by
  unfold ofDot at h
  split at h
  · next hd =>
    cases h
    exact canonical_of_document hd
  · cases h

/-- **Printing, then reading.** The canonical text of a canonical graph is read as that graph. -/
theorem ofDot_toDot {g : Graph} (h : g.Canonical) : Graph.ofDot g.toDot = .ok g := by
  rw [ofDot_of_document (document_toDot h), graph_tree h]

/-- A strict graph of ids that are hard to spell. -/
def awkward : Graph :=
  { directed := true
    strict := true
    name := some "<\\>"
    nodes := ["", "say \"hi\"", "x\\\"y", "digraph", "a\nb"]
    edges := [
      { source := "", target := "x\\\"y", attrs := .ofList [("a\\\\", "/* \x7d"), ("#", "//")] },
      { source := "x\\\"y", target := "" },
      { source := "digraph", target := "digraph", attrs := .ofList [("\\", "")] }]
    nodeAttrs := .ofList [("a\nb", .ofList [("label", "]"), ("node", ">\\\\<")])]
    attrs := .ofList [("strict", "a=b;")] }

theorem ofDot_toDot_awkward :
    awkward.Canonical ∧ Graph.ofDot awkward.toDot = .ok awkward := by
  have h : awkward.Canonical := {
    nodup := by decide
    ends := by decide
    entries := by decide +kernel
    strict := fun _ => by decide
    spellable := {
      name := by
        intro name hname
        cases hname
        decide
      nodes := by decide
      edges := by decide +kernel
      nodeAttrs := by decide +kernel
      attrs := by decide +kernel } }
  exact ⟨h, ofDot_toDot h⟩

/-- **Reading, then printing.** A text that is read gives a canonical graph, whose edges only join
its nodes; its canonical text is read as the same graph. -/
theorem canonical_ofDot {source : String} {g : Graph} (h : Graph.ofDot source = .ok g) :
    g.Canonical ∧ g.unknownNode? = none ∧ Graph.ofDot g.toDot = .ok g := by
  have hg := canonical_of_ofDot h
  refine ⟨hg, unknownNode?_eq_none.mpr hg.ends, ?_⟩
  rw [ofDot_of_document (document_toDot hg), graph_tree hg]

/-- What `nestedText` means. -/
def nested : Graph :=
  { strict := true
    nodes := ["a", "b", "c", "de"]
    edges := [
      { source := "b", target := "c" },
      { source := "a", target := "b", attrs := .ofList [("x", "y")] },
      { source := "a", target := "c", attrs := .ofList [("x", "y"), ("z", "w")] }]
    nodeAttrs := .ofList [("de", .ofList [("p", "<q>")])] }

/-- A text with a block as an endpoint, defaults, a port, joined strings and a repeated edge. -/
def nestedText : String :=
  "Strict graph \x7b a -- \x7bb:n -- c\x7d [x=y] node [p=<<q>>] \"d\" + \"e\"; " ++
    "subgraph \x7bc--a [z=w]\x7d \x7d"

theorem canonical_ofDot_nested : Graph.ofDot nestedText = .ok nested ∧ nested.Canonical ∧
    nested.unknownNode? = none ∧ Graph.ofDot nested.toDot = .ok nested := by
  have hread : (Graph.ofDot nestedText).toOption = some nested := by decide +kernel
  have h : Graph.ofDot nestedText = .ok nested := by
    cases hr : Graph.ofDot nestedText with
    | error e => rw [hr] at hread; cases hread
    | ok g => rw [hr] at hread; cases hread; rfl
  exact ⟨h, canonical_ofDot h⟩

end Graph
end Tiered
