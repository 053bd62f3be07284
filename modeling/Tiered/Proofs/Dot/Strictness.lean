import Tiered.Proofs.Dot.Merging

/-!
# Strict texts beside texts that are not

The word `strict` before a text changes nothing but the edges of its graph.

* `document_strict`: the text is read as the same tree;
* `ends_joinEdge`, `ends_foldl_joinEdge`: of the edges with the same ends merging keeps the ends of
  the first, in its place;
* `Merged.eq_gathered`: an edge of a strict graph has the attributes of all edges with its ends,
  later ones over earlier ones;
* `ofDot_strict`: so the graph of the strict text is the `StrictForm` of the other one.
-/

namespace Tiered

/-- Where an edge leads from and where to. -/
def Edge.ends (e : Edge) : String × String := (e.source, e.target)

namespace Graph

/-- The edges whose ends no edge before them has, where some edges stand before all of them. -/
def firsts (directed : Bool) (before : List Edge) : List Edge → List Edge
  | [] => []
  | e :: rest =>
    if before.any (e.sameEnds directed) then firsts directed (before ++ [e]) rest
    else e :: firsts directed (before ++ [e]) rest

/-- An edge with the attributes of all edges that have its ends, later ones over earlier ones. -/
def gathered (directed : Bool) (edges : List Edge) (f : Edge) : Edge :=
  { f with attrs := .ofList ((edges.filter (·.sameEnds directed f)).flatMap (·.attrs.entries)) }

/-- What a graph becomes when it is strict: of the edges with the same ends only the first stays,
where it stands and as it is directed, and it gets the attributes of them all. -/
structure StrictForm (g h : Graph) : Prop where
  strict : h.strict = true
  directed : h.directed = g.directed
  name : h.name = g.name
  nodes : h.nodes = g.nodes
  nodeAttrs : h.nodeAttrs = g.nodeAttrs
  attrs : h.attrs = g.attrs
  edges : h.edges = (firsts g.directed [] g.edges).map (gathered g.directed g.edges)
  keys : ∀ f ∈ h.edges, ∀ key, key ∈ f.attrs.keys ↔
    ∃ e ∈ g.edges, e.sameEnds g.directed f = true ∧ key ∈ e.attrs.keys

variable {directed : Bool}

/-! ## Edges known by their ends -/

/-- What does not depend on the attributes of edges is known from their ends. -/
theorem map_congr_ends {α : Type} {f : Edge → α}
    (hf : ∀ e : Edge, f e = f ⟨e.source, e.target, ∅⟩) {edges edges' : List Edge}
    (h : edges.map Edge.ends = edges'.map Edge.ends) : edges.map f = edges'.map f := by
  have hends (edges : List Edge) :
      edges.map f = (edges.map Edge.ends).map fun p => f ⟨p.1, p.2, ∅⟩ := by
    rw [List.map_map]
    exact List.map_congr_left fun e _ => hf e
  rw [hends, hends, h]

theorem any_sameEnds_congr {edges edges' : List Edge}
    (h : edges.map Edge.ends = edges'.map Edge.ends) (e : Edge) :
    edges.any (e.sameEnds directed) = edges'.any (e.sameEnds directed) := by
  have hmap : edges.map (e.sameEnds directed) = edges'.map (e.sameEnds directed) :=
    map_congr_ends (fun _ => rfl) h
  rw [← Function.id_comp (e.sameEnds directed), ← List.any_map, ← List.any_map, hmap]

/-- Which attributes an edge gathers is known from its ends. -/
theorem map_gathered_congr (all : List Edge) {edges edges' : List Edge}
    (h : edges.map Edge.ends = edges'.map Edge.ends) :
    edges.map (gathered directed all) = edges'.map (gathered directed all) :=
  map_congr_ends (fun _ => rfl) h

theorem mem_keys_gathered {edges : List Edge} {f : Edge} {key : String} :
    key ∈ (gathered directed edges f).attrs.keys ↔
      ∃ e ∈ edges, e.sameEnds directed f = true ∧ key ∈ e.attrs.keys := by
  simp only [gathered, Table.ofList, Table.mem_keys_extend, List.mem_flatMap, List.mem_filter]
  constructor
  · rintro (hnone | ⟨p, ⟨e, ⟨he, hef⟩, hp⟩, rfl⟩)
    · cases hnone
    · exact ⟨e, he, hef, List.mem_map_of_mem hp⟩
  · rintro ⟨e, he, hef, hkey⟩
    obtain ⟨p, hp, rfl⟩ := List.mem_map.mp hkey
    exact .inr ⟨p, ⟨e, ⟨he, hef⟩, hp⟩, rfl⟩

end Graph

namespace Dot

open Tiered.Graph (firsts gathered any_sameEnds_congr map_gathered_congr mem_keys_gathered)

variable {directed : Bool}

/-! ## Merging one edge after the other -/

theorem ends_mergeEdge? {e : Edge} {edges merged : List Edge}
    (h : mergeEdge? directed e edges = some merged) :
    merged.map Edge.ends = edges.map Edge.ends := by
  induction edges generalizing merged with
  | nil => cases h
  | cons f rest ih =>
    unfold mergeEdge? at h
    split at h
    · cases h
      rfl
    · obtain ⟨tail, htail, rfl⟩ := Option.map_eq_some_iff.mp h
      rw [List.map_cons, List.map_cons, ih htail]

theorem any_of_mergeEdge? {e : Edge} {edges : List Edge} :
    (mergeEdge? directed e edges).isSome = edges.any (e.sameEnds directed) := by
  induction edges with
  | nil => rfl
  | cons f rest ih =>
    rw [mergeEdge?, List.any_cons, ← ih]
    split
    · next hf => rw [hf]; rfl
    · next hf => rw [Bool.eq_false_iff.mpr hf, Option.isSome_map, Bool.false_or]

theorem ends_joinEdge (edges : List Edge) (e : Edge) :
    (joinEdge directed edges e).map Edge.ends =
      if edges.any (e.sameEnds directed) then edges.map Edge.ends
      else edges.map Edge.ends ++ [e.ends] := by
  rw [joinEdge, ← any_of_mergeEdge?]
  cases hm : mergeEdge? directed e edges with
  | some merged => exact ends_mergeEdge? hm
  | none => exact List.map_append

theorem any_joinEdge (edges : List Edge) (e x : Edge) :
    (joinEdge directed edges e).any (x.sameEnds directed) =
      (edges ++ [e]).any (x.sameEnds directed) := by
  have hends : (joinEdge directed edges e).map Edge.ends = _ := ends_joinEdge edges e
  split at hends
  · next he =>
    -- The edge is merged away, but one with its ends stays.
    obtain ⟨f, hf, hef⟩ := List.any_eq_true.mp he
    have hkept : x.sameEnds directed e = true → edges.any (x.sameEnds directed) = true :=
      fun hxe => List.any_eq_true.mpr ⟨f, hf, Edge.sameEnds_trans hxe hef⟩
    rw [any_sameEnds_congr hends, List.any_append, List.any_cons, List.any_nil, Bool.or_false]
    cases hxe : x.sameEnds directed e with
    | true => rw [hkept hxe, Bool.or_true]
    | false => rw [Bool.or_false]
  · exact any_sameEnds_congr (hends.trans (by rw [List.map_append, List.map_singleton])) x

/-- To join edges one by one to others, which have the same ends as those before them, adds the
first ones with their ends. -/
theorem ends_foldl_joinEdge {before edges : List Edge}
    (hbefore : ∀ x : Edge, edges.any (x.sameEnds directed) = before.any (x.sameEnds directed))
    (new : List Edge) :
    (new.foldl (joinEdge directed) edges).map Edge.ends =
      edges.map Edge.ends ++ (firsts directed before new).map Edge.ends := by
  induction new generalizing before edges with
  | nil => exact (List.append_nil _).symm
  | cons e new ih =>
    have hnext (x : Edge) : (joinEdge directed edges e).any (x.sameEnds directed) =
        (before ++ [e]).any (x.sameEnds directed) := by
      rw [any_joinEdge, List.any_append, List.any_append, hbefore]
    rw [List.foldl_cons, ih hnext, ends_joinEdge, hbefore, firsts]
    split
    · rfl
    · rw [List.map_cons, List.append_assoc, List.singleton_append]

/-! ## Attributes -/

theorem extend_flatMap_entries (t : Attrs) (ds : List Declaration) :
    t.extend ((ds.map Declaration.edge).flatMap (·.attrs.entries)) =
      t.extend (ds.flatMap Declaration.attrs) := by
  induction ds generalizing t with
  | nil => rfl
  | cons d ds ih =>
    rw [List.map_cons, List.flatMap_cons, List.flatMap_cons, extend_append, extend_append]
    have hd : t.extend d.edge.attrs.entries = t.extend d.attrs := extend_ofList t d.attrs
    rw [hd, ih]

/-- An edge that says what the declarations with its ends say has the attributes of their edges. -/
theorem Merged.eq_gathered {ds : List Declaration} {edges : List Edge}
    (h : Merged directed ds edges) {f : Edge} (hf : f ∈ edges) :
    f = gathered directed (ds.map Declaration.edge) f := by
  have hattrs : f.attrs = (gathered directed (ds.map Declaration.edge) f).attrs := by
    rw [h.attrs f hf, gathered, List.filter_map]
    exact (extend_flatMap_entries ∅ _).symm
  show f = { f with attrs := (gathered directed (ds.map Declaration.edge) f).attrs }
  rw [← hattrs]

/-! ## The word before the text -/

theorem not_isWordPart_of_isBlank {c : Char} (hc : Text.isBlank c = true) :
    isWordPart c = false := by
  cases hword : isWordPart c with
  | false => rfl
  | true => rw [not_isBlank_of_isWordPart hword] at hc; cases hc

/-- The kind of a graph is read off the word alone; the text is kept for the error. -/
theorem kind_congr {start start' word : List Char} {directed : Bool}
    (h : header.kind start word = .ok directed) : header.kind start' word = .ok directed := by
  unfold header.kind at h ⊢
  split at h
  · exact h
  · exact h
  · cases h

/-- A text that is not strict begins with the word that says whether edges have a direction. -/
theorem kind_of_header {s behind : List Char} {directed : Bool}
    (h : header s = .ok ((false, directed), behind)) :
    ∃ start word, skipBlanks s = .ok start ∧ word? start = some (word, behind) ∧
      header.kind start word = .ok directed := by
  simp only [header, bind_eq_ok] at h
  obtain ⟨start, hstart, h⟩ := h
  split at h
  · next word rest hword =>
    split at h
    · simp only [bind_eq_ok] at h
      obtain ⟨_, -, h⟩ := h
      split at h
      · simp only [bind_eq_ok] at h
        obtain ⟨_, -, h⟩ := h
        cases h
      · cases h
    · simp only [bind_eq_ok] at h
      obtain ⟨kind, hkind, h⟩ := h
      cases h
      exact ⟨start, word, hstart, hword, hkind⟩
  · cases h

theorem header_strict {s behind : List Char} {directed : Bool} {c : Char}
    (hc : Text.isBlank c = true) (h : header s = .ok ((false, directed), behind)) :
    header ("strict".toList ++ c :: s) = .ok ((true, directed), behind) := by
  obtain ⟨start, word, hstart, hword, hkind⟩ := kind_of_header h
  have hskip : skipBlanks ("strict".toList ++ c :: s) = .ok ("strict".toList ++ c :: s) :=
    skipBlanks_stop (by decide) _
  have hfirst : word? ("strict".toList ++ c :: s) = some ("strict".toList, c :: s) :=
    word?_append (by decide) (by decide) (not_isWordPart_of_isBlank hc) s
  have hstrict : keyword? "strict".toList = some .strict := rfl
  rw [header, hskip, ok_bind, hfirst]
  simp only [hstrict, skipBlanks_blank hc, hstart, ok_bind, hword, kind_congr hkind]
  rfl

/-- With `strict` and a blank before it a text is read as the same tree. -/
theorem document_strict {s : List Char} {d : Document} {c : Char} (hc : Text.isBlank c = true)
    (h : document s = .ok d) (hs : d.strict = false) :
    document ("strict".toList ++ c :: s) = .ok { d with strict := true } := by
  simp only [document, bind_eq_ok] at h ⊢
  obtain ⟨⟨⟨strict, directed⟩, s₁⟩, hheader, s₂, hs₂, read, hread, s₃, hs₃, s₄, hs₄, q, hq, s₅, hs₅,
    h⟩ := h
  cases s₅ with
  | cons c s₅ => cases h
  | nil =>
    cases h
    have hs : strict = false := hs
    subst hs
    exact ⟨((true, directed), s₁), header_strict hc hheader, s₂, hs₂, read, hread, s₃, hs₃, s₄, hs₄,
      q, hq, [], hs₅, rfl⟩

/-! ## The graph of the tree -/

/-- Whether a graph is strict makes no difference to its nodes. -/
theorem foldl_note_strict (g : Graph) (strict : Bool) (mentions : List Mention) :
    mentions.foldl note { g with strict } = { mentions.foldl note g with strict } := by
  induction mentions generalizing g with
  | nil => rfl
  | cons m mentions ih =>
    have hnote : note { g with strict } m = { note g m with strict } := by
      rw [note_eq, note_eq]
      rfl
    rw [List.foldl_cons, hnote, ih, List.foldl_cons]

theorem Document.graph_strict (d : Document) : { d with strict := true }.graph =
    { d.graph with
      strict := true
      edges := (edgesIn [] d.body).foldl (joinEdge d.directed) [] } := by
  let strict : Document := { d with strict := true }
  let start : Graph := { directed := d.directed, strict := d.strict, name := d.name }
  have hnotes := foldl_note_strict start true (mentionsIn [] d.body)
  show strict.graph = _
  rw [strict.graph_eq, d.graph_eq]
  exact congrArg (fun g : Graph => { g with
    edges := (edgesIn [] d.body).foldl (joinEdge d.directed) []
    attrs := (∅ : Attrs).extend (settings .graph d.body) }) hnotes

/-- Merged edges are the first ones with their ends, with the attributes that they gather. -/
theorem foldl_joinEdge_eq (d : Document) :
    (edgesIn [] d.body).foldl (joinEdge d.directed) [] =
      (firsts d.directed [] (edgesIn [] d.body)).map (gathered d.directed (edgesIn [] d.body)) := by
  let merged := (edgesIn [] d.body).foldl (joinEdge d.directed) []
  have hmerged : Merged d.directed (declarationsIn [] d.body) merged := by
    have hstrict := { d with strict := true }.merged rfl
    rwa [Document.graph_strict] at hstrict
  have hself : merged.map (gathered d.directed (edgesIn [] d.body)) = merged := by
    rw [edgesIn_eq]
    exact (List.map_congr_left fun f hf => (hmerged.eq_gathered hf).symm).trans (List.map_id' _)
  calc merged = merged.map (gathered d.directed (edgesIn [] d.body)) := hself.symm
    _ = _ := map_gathered_congr _ (ends_foldl_joinEdge (fun _ => rfl) _)

/-- What a tree means when it is strict is the strict form of what it means when it is not. -/
theorem Document.strictForm_graph (d : Document) (hs : d.strict = false) :
    d.graph.StrictForm { d with strict := true }.graph := by
  have hdirected : d.graph.directed = d.directed := by
    rw [d.graph_eq]
    exact congrArg Graph.directed (foldl_note_eq _ (mentionsIn [] d.body))
  have hedges : d.graph.edges = edgesIn [] d.body := by
    rw [d.graph_eq]
    exact if_neg (by simp [hs])
  have hgathered : { d with strict := true }.graph.edges =
      (firsts d.graph.directed [] d.graph.edges).map (gathered d.graph.directed d.graph.edges) := by
    rw [d.graph_strict, hdirected, hedges]
    exact foldl_joinEdge_eq d
  have hkeys : ∀ f ∈ { d with strict := true }.graph.edges, ∀ key, key ∈ f.attrs.keys ↔
      ∃ e ∈ d.graph.edges, e.sameEnds d.graph.directed f = true ∧ key ∈ e.attrs.keys := by
    intro f hf key
    rw [hgathered] at hf
    obtain ⟨x, -, rfl⟩ := List.mem_map.mp hf
    exact mem_keys_gathered
  rw [d.graph_strict] at hgathered hkeys ⊢
  exact {
    strict := rfl
    directed := rfl
    name := rfl
    nodes := rfl
    nodeAttrs := rfl
    attrs := rfl
    edges := hgathered
    keys := hkeys }

end Dot

namespace Graph

open Dot

/-- **Strictness.** With `strict` and a blank before it, a text that is not strict is accepted too,
and its graph is the strict form of the graph it means without. -/
theorem ofDot_strict {source : String} {g : Graph} (hg : Graph.ofDot source = .ok g)
    (hs : g.strict = false) {blank : Char} (hblank : Text.isBlank blank = true) :
    ∃ h, Graph.ofDot ("strict" ++ String.singleton blank ++ source) = .ok h ∧ StrictForm g h := by
  unfold Graph.ofDot at hg
  split at hg
  · next d hd =>
    cases hg
    have hstrict : d.strict = false := by
      rw [← hs, d.graph_eq]
      exact (congrArg Graph.strict (foldl_note_eq
        { directed := d.directed, strict := d.strict, name := d.name } _)).symm
    have htext : ("strict" ++ String.singleton blank ++ source).toList =
        "strict".toList ++ blank :: source.toList := by
      rw [String.toList_append, String.toList_append, String.toList_singleton, List.append_assoc,
        List.singleton_append]
    refine ⟨{ d with strict := true }.graph, ?_, d.strictForm_graph hstrict⟩
    rw [Graph.ofDot, htext, document_strict hblank hd hstrict]
  · cases hg

/-- Edges without direction, two of which come back the other way round. -/
def bundle : String := "graph\x7ba--b[w=1];\x7ba b\x7d--c[w=2];c--a[x=3];b--a[y=4]\x7d"

theorem ofDot_strict_bundle : ∃ g h, Graph.ofDot bundle = .ok g ∧ g.strict = false ∧
    Text.isBlank '\t' = true ∧
    Graph.ofDot ("strict" ++ String.singleton '\t' ++ bundle) = .ok h ∧ StrictForm g h ∧
    h.edges = [⟨"a", "b", .ofList [("w", "1"), ("y", "4")]⟩,
      ⟨"a", "c", .ofList [("w", "2"), ("x", "3")]⟩, ⟨"b", "c", .ofList [("w", "2")]⟩] := by
  let edges : List Edge := [⟨"a", "b", .ofList [("w", "1")]⟩, ⟨"a", "c", .ofList [("w", "2")]⟩,
    ⟨"b", "c", .ofList [("w", "2")]⟩, ⟨"c", "a", .ofList [("x", "3")]⟩,
    ⟨"b", "a", .ofList [("y", "4")]⟩]
  have hread : (document bundle.toList).toOption.map (fun d =>
      (d.graph.strict, d.graph.directed, d.graph.edges)) = some (false, false, edges) := by
    decide +kernel
  obtain ⟨d, hd, hall⟩ := exists_document hread
  obtain ⟨hs, hdirected, hedges⟩ : d.graph.strict = false ∧ d.graph.directed = false ∧
      d.graph.edges = edges := by simpa only [Prod.mk.injEq] using hall
  have hg : Graph.ofDot bundle = .ok d.graph := by rw [Graph.ofDot, hd]
  have htab : Text.isBlank '\t' = true := by decide
  obtain ⟨h, hh, hform⟩ := ofDot_strict hg hs htab
  refine ⟨d.graph, h, hg, hs, htab, hh, hform, ?_⟩
  rw [hform.edges, hdirected, hedges]
  decide

end Graph
end Tiered
