import Tiered.Proofs.Dot.Acceptance
import Tiered.Proofs.Dot.Scoping

/-!
# Edges of strict graphs

A strict graph keeps one edge for all declarations with the same ends, and each of them overlays its
attributes, those it has by default as well as its own.

* `declarationsIn`: the declarations of edges in the order of the text, each with the defaults in
  its sight and its own attributes apart; they are the edges declared (`edgesIn_eq`);
* `Merged.join`, `merged_foldl`: an edge has what the declarations with its ends say, the last one
  winning;
* `strict_value`: so a value that a declaration sets itself stays until a later declaration sets the
  key, or has it by default.
-/

namespace Tiered

theorem Edge.sameEnds_trans {directed : Bool} {e f h : Edge} (hef : e.sameEnds directed f = true)
    (hfh : f.sameEnds directed h = true) : e.sameEnds directed h = true := by
  simp only [sameEnds, Bool.or_eq_true, Bool.and_eq_true, beq_iff_eq] at *
  grind

theorem Edge.sameEnds_self {directed : Bool} (e : Edge) : e.sameEnds directed e = true := by
  simp [sameEnds]

namespace Dot

/-! ## Declarations -/

/-- The value that attributes give a key, the last one winning. -/
def valueIn (attrs : AttrList) (key : String) : Option String := attrs.reverse.lookup key

theorem valueIn_append (a b : AttrList) (key : String) :
    valueIn (a ++ b) key = (valueIn b key).or (valueIn a key) := by
  rw [valueIn, List.reverse_append, List.lookup_append]
  rfl

theorem get?_ofList (attrs : AttrList) (key : String) :
    (Table.ofList attrs).get? key = valueIn attrs key := by
  rw [Table.ofList, Table.get?_extend, Table.get?_empty, Option.or_none]
  rfl

/-- A place where an edge is declared. -/
structure Declaration where
  source : String
  target : String
  /-- The defaults in the sight of that place. -/
  inherited : AttrList
  /-- The attributes of the statement itself. -/
  own : AttrList
  deriving DecidableEq

/-- All that a declaration says of its edge. -/
def Declaration.attrs (d : Declaration) : AttrList := d.inherited ++ d.own

def Declaration.edge (d : Declaration) : Edge := ⟨d.source, d.target, .ofList d.attrs⟩

/-- The declarations of one statement, from the members of each endpoint to those of the next. -/
def declarations (inherited own : AttrList) (groups : List (List String)) : List Declaration :=
  (groups.zip groups.tail).flatMap fun (sources, targets) =>
    sources.flatMap fun s => targets.map fun t => { source := s, target := t, inherited, own }

mutual

/-- The declarations in the rest of a block, behind the statements `sight`. -/
def declarationsIn (sight : List Stmt) : List Stmt → List Declaration
  | [] => []
  | s :: rest => declarationsOf sight s ++ declarationsIn (sight ++ [s]) rest
termination_by structural x => x

def declarationsOf (sight : List Stmt) : Stmt → List Declaration
  | .node _ _ => []
  | .edges ends attrs =>
    declarationsOfEnds sight ends ++
      declarations (settings .edge sight) attrs
        (ends.map fun e => distinct (mentionsOfEnd sight e))
  | .defaults _ _ => []
  | .block body => declarationsIn sight body
termination_by structural x => x

def declarationsOfEnds (sight : List Stmt) : List Endpoint → List Declaration
  | [] => []
  | e :: rest => declarationsOfEnd sight e ++ declarationsOfEnds sight rest
termination_by structural x => x

def declarationsOfEnd (sight : List Stmt) : Endpoint → List Declaration
  | .node _ => []
  | .block body => declarationsIn sight body
termination_by structural x => x

end

theorem product_eq (inherited own : AttrList) (groups : List (List String)) :
    product (.ofList (inherited ++ own)) groups =
      (declarations inherited own groups).map Declaration.edge := by
  simp only [product, declarations, List.map_flatMap, List.map_map]
  rfl

mutual

theorem edgesIn_eq (sight : List Stmt) : ∀ stmts : List Stmt,
    edgesIn sight stmts = (declarationsIn sight stmts).map Declaration.edge
  | [] => rfl
  | s :: rest => by
    rw [edgesIn, declarationsIn, List.map_append, edgesOf_eq sight s, edgesIn_eq _ rest]
termination_by structural x => x

theorem edgesOf_eq (sight : List Stmt) : ∀ s : Stmt,
    edgesOf sight s = (declarationsOf sight s).map Declaration.edge
  | .node _ _ => rfl
  | .edges ends attrs => by
    rw [edgesOf, declarationsOf, List.map_append, edgesOfEnds_eq sight ends, product_eq]
  | .defaults _ _ => rfl
  | .block body => edgesIn_eq sight body
termination_by structural x => x

theorem edgesOfEnds_eq (sight : List Stmt) : ∀ ends : List Endpoint,
    edgesOfEnds sight ends = (declarationsOfEnds sight ends).map Declaration.edge
  | [] => rfl
  | e :: rest => by
    rw [edgesOfEnds, declarationsOfEnds, List.map_append, edgesOfEnd_eq sight e,
      edgesOfEnds_eq sight rest]
termination_by structural x => x

theorem edgesOfEnd_eq (sight : List Stmt) : ∀ e : Endpoint,
    edgesOfEnd sight e = (declarationsOfEnd sight e).map Declaration.edge
  | .node _ => rfl
  | .block body => edgesIn_eq sight body
termination_by structural x => x

end

/-! ## Merging -/

/-- The declarations that have the ends of an edge. -/
def declaring (directed : Bool) (ds : List Declaration) (e : Edge) : List Declaration :=
  ds.filter fun d => d.edge.sameEnds directed e

/-- An edge that is overlaid with another one if they have the same ends. -/
def overlaid (directed : Bool) (e f : Edge) : Edge :=
  if e.sameEnds directed f then { f with attrs := f.attrs.extend e.attrs.entries } else f

theorem sameEnds_overlaid (directed : Bool) (x e f : Edge) :
    x.sameEnds directed (overlaid directed e f) = x.sameEnds directed f := by
  unfold overlaid
  split <;> rfl

theorem declaring_overlaid (directed : Bool) (ds : List Declaration) (e f : Edge) :
    declaring directed ds (overlaid directed e f) = declaring directed ds f := by
  unfold declaring
  simp only [sameEnds_overlaid]

/-- Where no two edges have the same ends, merging overlays each edge that has those of the new
one. -/
theorem mergeEdge?_eq_map {directed : Bool} {e : Edge} {edges merged : List Edge}
    (h : mergeEdge? directed e edges = some merged) (hapart : Apart directed edges) :
    merged = edges.map (overlaid directed e) := by
  induction edges generalizing merged with
  | nil => cases h
  | cons f rest ih =>
    obtain ⟨hf, hrest⟩ := List.pairwise_cons.mp hapart
    unfold mergeEdge? at h
    split at h
    · rename_i hsame
      cases h
      have hkept : rest.map (overlaid directed e) = rest := by
        have hne : ∀ x ∈ rest, overlaid directed e x = x := by
          intro x hx
          refine if_neg fun hex => Bool.false_ne_true ((hf x hx).symm.trans ?_)
          exact Edge.sameEnds_trans (Edge.sameEnds_comm .. ▸ hsame) hex
        rw [List.map_congr_left hne, List.map_id']
      rw [List.map_cons, overlaid, if_pos hsame, hkept]
    · rename_i hne
      obtain ⟨tail, htail, rfl⟩ := Option.map_eq_some_iff.mp h
      rw [List.map_cons, overlaid, if_neg hne, ih htail hrest]

theorem exists_of_mergeEdge? {directed : Bool} {e : Edge} {edges merged : List Edge}
    (h : mergeEdge? directed e edges = some merged) :
    ∃ f ∈ edges, e.sameEnds directed f = true := by
  apply Classical.byContradiction
  intro hnone
  rw [mergeEdge?_eq_none fun f hf => Bool.eq_false_iff.mpr fun hef => hnone ⟨f, hf, hef⟩] at h
  cases h

@[simp] theorem declaring_append (directed : Bool) (a b : List Declaration) (e : Edge) :
    declaring directed (a ++ b) e = declaring directed a e ++ declaring directed b e :=
  List.filter_append ..

theorem declaring_same {directed : Bool} {d : Declaration} {e : Edge}
    (h : d.edge.sameEnds directed e = true) : declaring directed [d] e = [d] :=
  List.filter_cons_of_pos h

theorem declaring_other {directed : Bool} {d : Declaration} {e : Edge}
    (h : d.edge.sameEnds directed e = false) : declaring directed [d] e = [] :=
  List.filter_cons_of_neg (Bool.eq_false_iff.mp h)

/-- Writing the entries of a table is writing what the table was made of. -/
theorem extend_ofList (t : Attrs) (attrs : AttrList) :
    t.extend (Table.ofList attrs).entries = t.extend attrs := by
  apply Table.ext_get?
  intro key
  rw [Table.get?_extend_entries, get?_ofList, Table.get?_extend]
  rfl

/-- The edges after some declarations: one for all that have the same ends, with what they say. -/
structure Merged (directed : Bool) (done : List Declaration) (edges : List Edge) : Prop where
  apart : Apart directed edges
  covers : ∀ d ∈ done, ∃ f ∈ edges, d.edge.sameEnds directed f = true
  attrs : ∀ f ∈ edges, f.attrs = .ofList ((declaring directed done f).flatMap Declaration.attrs)

theorem Merged.join {directed : Bool} {done : List Declaration} {edges : List Edge}
    (h : Merged directed done edges) (d : Declaration) :
    Merged directed (done ++ [d]) (joinEdge directed edges d.edge) := by
  have hapart := apart_joinEdge h.apart d.edge
  unfold joinEdge at hapart ⊢
  cases hm : mergeEdge? directed d.edge edges with
  | none =>
    rw [hm] at hapart
    have hnew : ∀ f ∈ edges, d.edge.sameEnds directed f = false := mergeEdge?_none hm
    -- what is declared before with the ends of `d` would have put an edge there
    have hfirst : declaring directed done d.edge = [] := by
      refine List.filter_eq_nil_iff.mpr fun c hc hcd => ?_
      obtain ⟨f, hf, hcf⟩ := h.covers c hc
      have hdf := Edge.sameEnds_trans (Edge.sameEnds_comm .. ▸ hcd) hcf
      exact Bool.false_ne_true ((hnew f hf).symm.trans hdf)
    refine ⟨hapart, fun c hc => ?_, fun f hf => ?_⟩
    · rcases List.mem_append.mp hc with hc | hc
      · obtain ⟨f, hf, hcf⟩ := h.covers c hc
        exact ⟨f, List.mem_append_left _ hf, hcf⟩
      · rw [List.mem_singleton.mp hc]
        exact ⟨d.edge, List.mem_append_right _ (List.mem_singleton_self _), d.edge.sameEnds_self⟩
    · rcases List.mem_append.mp hf with hf | hf
      · rw [declaring_append, declaring_other (hnew f hf), List.append_nil, h.attrs f hf]
      · rw [List.mem_singleton.mp hf, declaring_append, hfirst, declaring_same d.edge.sameEnds_self]
        exact congrArg Table.ofList (List.append_nil d.attrs).symm
  | some merged =>
    rw [hm] at hapart
    obtain rfl := mergeEdge?_eq_map hm h.apart
    refine ⟨hapart, fun c hc => ?_, fun x hx => ?_⟩
    · have hmatch : ∃ f ∈ edges, c.edge.sameEnds directed f = true := by
        rcases List.mem_append.mp hc with hc | hc
        · exact h.covers c hc
        · rw [List.mem_singleton.mp hc]
          exact exists_of_mergeEdge? hm
      obtain ⟨f, hf, hcf⟩ := hmatch
      exact ⟨_, List.mem_map_of_mem hf, (sameEnds_overlaid ..).trans hcf⟩
    · obtain ⟨f, hf, rfl⟩ := List.mem_map.mp hx
      rw [declaring_overlaid, declaring_append, List.flatMap_append]
      by_cases hdf : d.edge.sameEnds directed f = true
      · rw [declaring_same hdf, overlaid, if_pos hdf, ofList_append, ← h.attrs f hf,
          List.flatMap_singleton]
        exact extend_ofList f.attrs d.attrs
      · rw [declaring_other (Bool.eq_false_iff.mpr hdf), overlaid, if_neg hdf, h.attrs f hf]
        exact congrArg Table.ofList (List.append_nil _).symm

theorem merged_foldl {directed : Bool} {done : List Declaration} {edges : List Edge}
    (h : Merged directed done edges) (ds : List Declaration) :
    Merged directed (done ++ ds) ((ds.map Declaration.edge).foldl (joinEdge directed) edges) := by
  induction ds generalizing done edges with
  | nil => rwa [List.append_nil]
  | cons d ds ih =>
    rw [List.append_cons]
    exact ih (h.join d)

/-- Where no declaration sets a key itself, it has the last value that one has by default. -/
theorem valueIn_of_inherited {ds : List Declaration} {key : String}
    (h : ∀ d ∈ ds, valueIn d.own key = none) :
    valueIn (ds.flatMap Declaration.attrs) key =
      valueIn (ds.flatMap Declaration.inherited) key := by
  induction ds with
  | nil => rfl
  | cons d ds ih =>
    obtain ⟨hd, hds⟩ := List.forall_mem_cons.mp h
    rw [List.flatMap_cons, List.flatMap_cons, valueIn_append, valueIn_append, ih hds,
      Declaration.attrs, valueIn_append, hd, Option.none_or]

/-- Of several declarations that say something about a key, take the last one that sets it itself:
its value stays, unless a later one has the key by default. -/
theorem valueIn_last {before after : List Declaration} {m : Declaration} {key v : String}
    (hm : valueIn m.own key = some v) (hafter : ∀ n ∈ after, valueIn n.own key = none) :
    valueIn ((before ++ m :: after).flatMap Declaration.attrs) key =
      some ((valueIn (after.flatMap Declaration.inherited) key).getD v) := by
  have hattrs : valueIn m.attrs key = some v := by
    rw [Declaration.attrs, valueIn_append, hm, Option.some_or]
  rw [List.flatMap_append, List.flatMap_cons, valueIn_append, valueIn_append, hattrs,
    valueIn_of_inherited hafter]
  cases valueIn (after.flatMap Declaration.inherited) key <;> rfl

/-- No two edges of a strict graph have the same ends, and each says what the declarations with its
ends say, one after the other. -/
theorem Document.merged (d : Document) (hs : d.strict = true) :
    Merged d.directed (declarationsIn [] d.body) d.graph.edges := by
  have hedges : d.graph.edges =
      ((declarationsIn [] d.body).map Declaration.edge).foldl (joinEdge d.directed) [] := by
    rw [d.graph_eq, ← edgesIn_eq]
    exact if_pos hs
  have hnone : Merged d.directed [] [] := ⟨.nil, by simp, by simp⟩
  rw [hedges]
  exact merged_foldl hnone _

theorem exists_document {α : Type} {s : List Char} {f : Document → α} {a : α}
    (h : (document s).toOption.map f = some a) : ∃ d, document s = .ok d ∧ f d = a := by
  cases hr : document s with
  | error e => rw [hr] at h; cases h
  | ok d =>
    rw [hr] at h
    exact ⟨d, rfl, Option.some.inj h⟩

end Dot

namespace Graph

open Dot

/-- **Attributes in strict graphs.** Every declaration of an edge has one edge, which says what all
the declarations with its ends say. The value that the last of them to set a key sets is the one the
edge has, if and only if none of those behind it has another value by default. -/
theorem strict_value {source : String} {d : Document} (hd : IsDocument source.toList d)
    (hs : d.strict = true) :
    ∃ g, Graph.ofDot source = .ok g ∧ Merged d.directed (declarationsIn [] d.body) g.edges ∧
      ∀ f ∈ g.edges, ∀ before m after key v,
        declaring d.directed (declarationsIn [] d.body) f = before ++ m :: after →
        valueIn m.own key = some v → (∀ n ∈ after, valueIn n.own key = none) →
          f.attr? key = some ((valueIn (after.flatMap Declaration.inherited) key).getD v) ∧
          (f.attr? key = some v ↔
            ∀ w, valueIn (after.flatMap Declaration.inherited) key = some w → w = v) := by
  have hmerged := d.merged hs
  refine ⟨d.graph, by rw [Graph.ofDot, document_iff.mpr hd], hmerged, ?_⟩
  intro f hf before m after key v hall hm hafter
  have hvalue : f.attr? key =
      some ((valueIn (after.flatMap Declaration.inherited) key).getD v) := by
    rw [Edge.attr?, hmerged.attrs f hf, get?_ofList, hall]
    exact valueIn_last hm hafter
  refine ⟨hvalue, ?_⟩
  rw [hvalue]
  cases valueIn (after.flatMap Declaration.inherited) key with
  | none => simp
  | some w => simp

/-- An edge that is declared three times, once with a default in sight. -/
def recoloured : String :=
  "strict graph\x7ba--b[color=red]\x7bedge[color=blue,w=1]b--a[color=green]\x7da--b\x7d"

theorem strict_value_recoloured : ∃ g, Graph.ofDot recoloured = .ok g ∧
    ∃ f ∈ g.edges, f.attr? "color" = some "green" := by
  let first : Declaration := ⟨"a", "b", [], [("color", "red")]⟩
  let second : Declaration :=
    ⟨"b", "a", [("color", "blue"), ("w", "1")], [("color", "green")]⟩
  let third : Declaration := ⟨"a", "b", [], []⟩
  let edge : Edge := ⟨"a", "b", .ofList [("color", "green"), ("w", "1")]⟩
  obtain ⟨d, hd, hs, hdirected, hds⟩ : ∃ d, document recoloured.toList = .ok d ∧ d.strict = true ∧
      d.directed = false ∧ declarationsIn [] d.body = [first, second, third] := by
    have hread : (document recoloured.toList).toOption.map (fun d =>
        (d.strict, d.directed, declarationsIn [] d.body)) =
          some (true, false, [first, second, third]) := by decide +kernel
    simpa only [Prod.mk.injEq] using exists_document hread
  have hedges : (Graph.ofDot recoloured).toOption.map Graph.edges = some [edge] := by
    decide +kernel
  obtain ⟨g, hg, -, hvalue⟩ := strict_value (document_iff.mp hd) hs
  rw [hdirected, hds] at hvalue
  rw [hg] at hedges
  have hmem : edge ∈ g.edges := by
    rw [Option.some.inj hedges]
    exact List.mem_singleton_self edge
  refine ⟨g, hg, edge, hmem, ?_⟩
  exact (hvalue edge hmem [first] second [third] "color" "green" (by decide) (by decide)
    (by decide)).1

/-- A default that stands between two declarations of an edge. -/
def overridden : String :=
  "strict digraph\x7ba->b[color=red];edge[color=blue];a->b\x7d"

/-- What only a later declaration has by default takes the place of what the edge says itself. -/
theorem default_overrides : ∃ d g, IsDocument overridden.toList d ∧ d.strict = true ∧
    declarationsIn [] d.body =
      [⟨"a", "b", [], [("color", "red")]⟩, ⟨"a", "b", [("color", "blue")], []⟩] ∧
    Graph.ofDot overridden = .ok g ∧ g.edges = [⟨"a", "b", .ofList [("color", "blue")]⟩] := by
  have hread : (document overridden.toList).toOption.map (fun d =>
      (d.strict, declarationsIn [] d.body, d.graph.edges)) = some (true,
        [⟨"a", "b", [], [("color", "red")]⟩, ⟨"a", "b", [("color", "blue")], []⟩],
        [⟨"a", "b", .ofList [("color", "blue")]⟩]) := by decide +kernel
  obtain ⟨d, hd, hall⟩ := exists_document hread
  obtain ⟨hs, hds, hedges⟩ : d.strict = true ∧ _ ∧ _ := by simpa only [Prod.mk.injEq] using hall
  exact ⟨d, d.graph, document_iff.mp hd, hs, hds, by rw [Graph.ofDot, hd], hedges⟩

end Graph
end Tiered
