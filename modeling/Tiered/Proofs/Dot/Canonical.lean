import Tiered.Dot.Meaning
import Tiered.Proofs.Dot.Reading
import Tiered.Proofs.Graph

/-!
# Canonical graphs

A graph is canonical when nothing in it is lost in its canonical text:

* `canonical_runStmts`: running statements keeps a graph canonical;
* `graph_tree`: a canonical graph is what the tree of its text means.
-/
namespace Tiered

/-- Nodes are listed once, edges and attribute entries belong to nodes, no entry is empty, a
strict graph has no two edges with the same ends, and every text has a spelling. -/
structure Graph.Canonical (g : Graph) : Prop where
  nodup : g.nodes.Nodup
  ends : ∀ e ∈ g.edges, e.source ∈ g.nodes ∧ e.target ∈ g.nodes
  entries : ∀ e ∈ g.nodeAttrs.entries, e.1 ∈ g.nodes ∧ e.2 ≠ ∅
  strict : g.strict = true →
    g.edges.Pairwise fun e f => Edge.sameEnds g.directed e f = false
  spellable : Dot.SpellableGraph g

namespace Dot

/-! ## What the operations keep -/

theorem extend_ne_empty (t : Attrs) {pairs : List (String × String)} (h : pairs ≠ []) :
    t.extend pairs ≠ ∅ := by
  cases pairs with
  | nil => exact absurd rfl h
  | cons e pairs =>
    intro hempty
    have hget := Table.get?_extend t (e :: pairs) e.1
    rw [hempty, Table.get?_empty, List.reverse_cons, List.lookup_append] at hget
    simp [Table.lookup_cons] at hget

theorem spellable_extend {t : Attrs} {pairs : List (String × String)}
    (ht : SpellablePairs t.entries) (h : SpellablePairs pairs) :
    SpellablePairs (t.extend pairs).entries := by
  intro e he
  rcases Table.mem_extend he with he | he
  · exact ht e he
  · exact h e he

theorem canonical_addNode {g : Graph} (h : g.Canonical) {id : String} (hid : Spellable id) :
    (g.addNode id).Canonical := by
  unfold Graph.addNode
  by_cases hc : g.nodes.contains id = true
  · rw [if_pos hc]
    exact h
  · rw [if_neg hc]
    have hfresh : id ∉ g.nodes := by simpa using hc
    have hmem : ∀ {v}, v ∈ g.nodes → v ∈ g.nodes ++ [id] := List.mem_append_left _
    exact { h with
      nodup := by
        refine List.nodup_append.mpr ⟨h.nodup, List.pairwise_singleton _ id, ?_⟩
        intro v hv w hw heq
        rw [List.mem_singleton.mp hw] at heq
        exact hfresh (heq ▸ hv)
      ends := fun e he => ⟨hmem (h.ends e he).1, hmem (h.ends e he).2⟩
      entries := fun e he => ⟨hmem (h.entries e he).1, (h.entries e he).2⟩
      spellable := { h.spellable with
        nodes := fun v hv => by
          rcases List.mem_append.mp hv with hv | hv
          · exact h.spellable.nodes v hv
          · rw [List.mem_singleton.mp hv]
            exact hid } }

theorem mem_addMember (members : List String) (id v : String) :
    v ∈ addMember members id ↔ v ∈ members ∨ v = id := by
  unfold addMember
  by_cases hc : members.contains id = true
  · have hmem : id ∈ members := by simpa using hc
    rw [if_pos hc]
    constructor
    · exact .inl
    · rintro (hv | rfl)
      · exact hv
      · exact hmem
  · rw [if_neg hc, List.mem_append, List.mem_singleton]

theorem mem_foldl_addMember (members ids : List String) (v : String) :
    v ∈ ids.foldl addMember members ↔ v ∈ members ∨ v ∈ ids := by
  induction ids generalizing members with
  | nil => simp
  | cons id ids ih => rw [List.foldl_cons, ih, mem_addMember, List.mem_cons, or_assoc]

/-- Nodes are added to a graph as members are to a group. -/
theorem nodes_addNode (g : Graph) (id : String) : (g.addNode id).nodes = addMember g.nodes id := by
  unfold Graph.addNode addMember
  split <;> rfl

theorem nodes_overlayNode (g : Graph) (id : String) (pairs : List (String × String)) :
    (g.overlayNode id pairs).nodes = g.nodes := by
  unfold Graph.overlayNode
  split <;> rfl

theorem canonical_overlayNode {g : Graph} (h : g.Canonical) {id : String} (hid : id ∈ g.nodes)
    {pairs : List (String × String)} (hpairs : SpellablePairs pairs) :
    (g.overlayNode id pairs).Canonical := by
  unfold Graph.overlayNode
  by_cases he : pairs.isEmpty = true
  · rw [if_pos he]
    exact h
  · rw [if_neg he]
    have hne : pairs ≠ [] := fun hnil => he (List.isEmpty_iff.mpr hnil)
    exact { h with
      entries := fun e he => by
        rcases Table.mem_put he with rfl | he
        · exact ⟨hid, extend_ne_empty _ hne⟩
        · exact h.entries e he
      spellable := { h.spellable with
        nodeAttrs := fun e he => by
          rcases Table.mem_put he with rfl | he
          · exact ⟨h.spellable.nodes id hid,
              spellable_extend (spellable_nodeAttrs h.spellable id) hpairs⟩
          · exact h.spellable.nodeAttrs e he } }

theorem canonical_mention {g : Graph} (h : g.Canonical) {defaults : Defaults}
    (hd : SpellablePairs defaults.node.entries) {id : String} (hid : Spellable id) :
    (mention g defaults id).Canonical := by
  unfold mention
  split
  · exact h
  · have hmem : id ∈ (g.addNode id).nodes := by
      rw [nodes_addNode]
      exact (mem_addMember _ _ _).mpr (.inr rfl)
    exact canonical_overlayNode (canonical_addNode h hid) hmem hd

theorem mem_nodes_mention (g : Graph) (defaults : Defaults) (id v : String) :
    v ∈ (mention g defaults id).nodes ↔ v ∈ g.nodes ∨ v = id := by
  have hnodes : (mention g defaults id).nodes = addMember g.nodes id := by
    unfold mention
    by_cases hc : g.nodes.contains id = true
    · rw [if_pos hc, addMember, if_pos hc]
    · rw [if_neg hc, nodes_overlayNode, nodes_addNode]
  rw [hnodes, mem_addMember]

theorem mergeEdge?_none {directed : Bool} {e : Edge} {edges : List Edge}
    (h : mergeEdge? directed e edges = none) :
    ∀ f ∈ edges, e.sameEnds directed f = false := by
  induction edges with
  | nil => intro f hf; cases hf
  | cons f rest ih =>
    unfold mergeEdge? at h
    split at h
    · cases h
    · next hne =>
      intro x hx
      rcases List.mem_cons.mp hx with rfl | hx
      · simpa using hne
      · exact ih (Option.map_eq_none_iff.mp h) x hx

theorem mergeEdge?_eq_none {directed : Bool} {e : Edge} {edges : List Edge}
    (h : ∀ f ∈ edges, e.sameEnds directed f = false) : mergeEdge? directed e edges = none := by
  induction edges with
  | nil => rfl
  | cons f rest ih =>
    rw [mergeEdge?, h f List.mem_cons_self, ih fun f hf => h f (List.mem_cons_of_mem _ hf)]
    rfl

/-- Merging only changes the attributes of one edge. -/
theorem mem_mergeEdge? {directed : Bool} {e : Edge} {edges merged : List Edge}
    (h : mergeEdge? directed e edges = some merged) {x : Edge} (hx : x ∈ merged) :
    x ∈ edges ∨ ∃ f ∈ edges, x = { f with attrs := f.attrs.extend e.attrs.entries } := by
  induction edges generalizing merged with
  | nil => cases h
  | cons f rest ih =>
    unfold mergeEdge? at h
    split at h
    · cases h
      rcases List.mem_cons.mp hx with rfl | hx
      · exact .inr ⟨f, List.mem_cons_self, rfl⟩
      · exact .inl (List.mem_cons_of_mem _ hx)
    · obtain ⟨tail, htail, rfl⟩ := Option.map_eq_some_iff.mp h
      rcases List.mem_cons.mp hx with rfl | hx
      · exact .inl List.mem_cons_self
      · rcases ih htail hx with hx | ⟨f, hf, he⟩
        · exact .inl (List.mem_cons_of_mem _ hx)
        · exact .inr ⟨f, List.mem_cons_of_mem _ hf, he⟩

/-- No two edges have the same ends. -/
def Apart (directed : Bool) (edges : List Edge) : Prop :=
  edges.Pairwise fun e f => e.sameEnds directed f = false

theorem apart_mergeEdge? {directed : Bool} {e : Edge} {edges merged : List Edge}
    (h : mergeEdge? directed e edges = some merged) (hapart : Apart directed edges) :
    Apart directed merged := by
  induction edges generalizing merged with
  | nil => cases h
  | cons f rest ih =>
    obtain ⟨hf, hrest⟩ := List.pairwise_cons.mp hapart
    unfold mergeEdge? at h
    split at h
    · cases h
      exact List.pairwise_cons.mpr ⟨hf, hrest⟩
    · obtain ⟨tail, htail, rfl⟩ := Option.map_eq_some_iff.mp h
      refine List.pairwise_cons.mpr ⟨?_, ih htail hrest⟩
      intro x hx
      rcases mem_mergeEdge? htail hx with hx | ⟨y, hy, rfl⟩
      · exact hf x hx
      · exact hf y hy

theorem apart_joinEdge {directed : Bool} {edges : List Edge} (h : Apart directed edges)
    (e : Edge) : Apart directed (joinEdge directed edges e) := by
  unfold joinEdge
  cases hm : mergeEdge? directed e edges with
  | some merged => exact apart_mergeEdge? hm h
  | none =>
    refine List.pairwise_append.mpr ⟨h, List.pairwise_singleton _ e, ?_⟩
    intro f hf x hx
    rw [List.mem_singleton.mp hx, Edge.sameEnds_comm]
    exact mergeEdge?_none hm f hf

theorem apart_foldl_joinEdge {directed : Bool} {edges : List Edge} (h : Apart directed edges)
    (new : List Edge) : Apart directed (new.foldl (joinEdge directed) edges) := by
  induction new generalizing edges with
  | nil => exact h
  | cons e new ih => exact ih (apart_joinEdge h e)

/-- Both ends are nodes, and every text of the attributes has a spelling. -/
def Declarable (g : Graph) (e : Edge) : Prop :=
  (e.source ∈ g.nodes ∧ e.target ∈ g.nodes) ∧ SpellablePairs e.attrs.entries

theorem declarable_foldl_joinEdge {g : Graph} {directed : Bool} {edges new : List Edge}
    (h : ∀ e ∈ edges, Declarable g e) (hnew : ∀ e ∈ new, Declarable g e) :
    ∀ e ∈ new.foldl (joinEdge directed) edges, Declarable g e := by
  induction new generalizing edges with
  | nil => exact h
  | cons e new ih =>
    have he := hnew e List.mem_cons_self
    apply ih _ fun f hf => hnew f (List.mem_cons_of_mem _ hf)
    intro x hx
    unfold joinEdge at hx
    cases hm : mergeEdge? directed e edges with
    | some merged =>
      rw [hm] at hx
      rcases mem_mergeEdge? hm hx with hx | ⟨f, hf, rfl⟩
      · exact h x hx
      · exact ⟨(h f hf).1, spellable_extend (h f hf).2 he.2⟩
    | none =>
      rw [hm] at hx
      rcases List.mem_append.mp hx with hx | hx
      · exact h x hx
      · rw [List.mem_singleton.mp hx]
        exact he

theorem canonical_declareEdges {g : Graph} (h : g.Canonical) {edges : List Edge}
    (hedges : ∀ e ∈ edges, Declarable g e) : (declareEdges g edges).Canonical := by
  have hold : ∀ e ∈ g.edges, Declarable g e :=
    fun e he => ⟨h.ends e he, (h.spellable.edges e he).2.2⟩
  have hall : ∀ e ∈ (declareEdges g edges).edges, Declarable g e := by
    unfold declareEdges
    cases hs : g.strict with
    | true => exact declarable_foldl_joinEdge hold hedges
    | false =>
      intro e he
      rcases List.mem_append.mp he with he | he
      · exact hold e he
      · exact hedges e he
  exact { h with
    ends := fun e he => (hall e he).1
    strict := fun hs => by
      have hs : g.strict = true := hs
      simp only [declareEdges, hs, if_true]
      exact apart_foldl_joinEdge (h.strict hs) edges
    spellable := { h.spellable with
      edges := fun e he => ⟨h.spellable.nodes _ (hall e he).1.1,
        h.spellable.nodes _ (hall e he).1.2, (hall e he).2⟩ } }

theorem canonical_setAttrs {g : Graph} (h : g.Canonical) {pairs : List (String × String)}
    (hpairs : SpellablePairs pairs) : Graph.Canonical { g with attrs := g.attrs.extend pairs } :=
  { h with
    spellable := { h.spellable with attrs := spellable_extend h.spellable.attrs hpairs } }

theorem mem_edgesBetween {attrs : Attrs} {groups : List (List String)} {e : Edge}
    (h : e ∈ edgesBetween attrs groups) :
    e.source ∈ groups.flatten ∧ e.target ∈ groups.flatten ∧ e.attrs = attrs := by
  fun_induction edgesBetween attrs groups with
  | case1 sources targets rest ih =>
    rcases List.mem_append.mp h with h | h
    · simp only [List.mem_flatMap, List.mem_map] at h
      obtain ⟨s, hs, t, ht, rfl⟩ := h
      exact ⟨by simp [hs], by simp [ht], rfl⟩
    · obtain ⟨hs, ht, ha⟩ := ih h
      exact ⟨List.mem_append_right _ hs, List.mem_append_right _ ht, ha⟩
  | case2 => cases h

/-! ## Running statements -/

mutual

/-- Every text in the statements has a spelling. -/
def SpellableStmts : List Stmt → Prop
  | [] => True
  | s :: rest => SpellableStmt s ∧ SpellableStmts rest

def SpellableStmt : Stmt → Prop
  | .node id attrs => Spellable id ∧ SpellablePairs attrs
  | .edges ends attrs => SpellableEnds ends ∧ SpellablePairs attrs
  | .defaults _ attrs => SpellablePairs attrs
  | .block body => SpellableStmts body

def SpellableEnds : List Endpoint → Prop
  | [] => True
  | e :: rest => SpellableEnd e ∧ SpellableEnds rest

def SpellableEnd : Endpoint → Prop
  | .node id => Spellable id
  | .block body => SpellableStmts body

end

/-- Every text of the defaults has a spelling. -/
structure SpellableDefaults (d : Defaults) : Prop where
  node : SpellablePairs d.node.entries
  edge : SpellablePairs d.edge.entries

/-- What holds of the progress through a block: the graph is canonical, and the block has only
mentioned nodes of it. -/
structure Sound (p : Progress) : Prop where
  graph : p.graph.Canonical
  defaults : SpellableDefaults p.defaults
  members : p.members ⊆ p.graph.nodes

mutual

theorem sound_runStmts (outermost : Bool) : ∀ {p : Progress} {stmts : List Stmt}, Sound p →
    SpellableStmts stmts → Sound (runStmts outermost p stmts) ∧
      p.graph.nodes ⊆ (runStmts outermost p stmts).graph.nodes
  | _, [], hp, _ => ⟨hp, fun _ h => h⟩
  | p, s :: rest, hp, hs => by
    obtain ⟨h1, hsub1⟩ := sound_runStmt outermost hp hs.1
    obtain ⟨h2, hsub2⟩ := sound_runStmts outermost h1 hs.2
    exact ⟨h2, fun _ h => hsub2 (hsub1 h)⟩

theorem sound_runStmt (outermost : Bool) : ∀ {p : Progress} {s : Stmt}, Sound p →
    SpellableStmt s → Sound (runStmt outermost p s) ∧
      p.graph.nodes ⊆ (runStmt outermost p s).graph.nodes
  | p, .node id attrs, hp, hs => by
    have hmem : ∀ v, v ∈ ((mention p.graph p.defaults id).overlayNode id attrs).nodes ↔
        v ∈ p.graph.nodes ∨ v = id := by
      intro v
      rw [nodes_overlayNode, mem_nodes_mention]
    have hid : id ∈ (mention p.graph p.defaults id).nodes :=
      (mem_nodes_mention _ _ id id).mpr (.inr rfl)
    have hgraph := canonical_overlayNode (canonical_mention hp.graph hp.defaults.node hs.1) hid hs.2
    refine ⟨⟨hgraph, hp.defaults, ?_⟩, fun v hv => (hmem v).mpr (.inl hv)⟩
    intro v hv
    rcases (mem_addMember _ _ _).mp hv with hv | rfl
    · exact (hmem v).mpr (.inl (hp.members hv))
    · exact (hmem v).mpr (.inr rfl)
  | p, .edges ends attrs, hp, hs => by
    obtain ⟨hgraph, hsub, hgroups⟩ := canonical_runEnds hp.graph hp.defaults hs.1
    have hedges : ∀ e ∈ edgesBetween (p.defaults.edge.extend attrs)
        (runEnds p.graph p.defaults ends).2, Declarable (runEnds p.graph p.defaults ends).1 e := by
      intro e he
      obtain ⟨hsource, htarget, hattrs⟩ := mem_edgesBetween he
      exact ⟨⟨hgroups hsource, hgroups htarget⟩,
        hattrs ▸ spellable_extend hp.defaults.edge hs.2⟩
    refine ⟨⟨canonical_declareEdges hgraph hedges, hp.defaults, ?_⟩, hsub⟩
    intro v hv
    rcases (mem_foldl_addMember _ _ _).mp hv with hv | hv
    · exact hsub (hp.members hv)
    · exact hgroups hv
  | p, .defaults .graph attrs, hp, hs => by
    cases outermost with
    | true => exact ⟨⟨canonical_setAttrs hp.graph hs, hp.defaults, hp.members⟩, fun _ h => h⟩
    | false => exact ⟨hp, fun _ h => h⟩
  | p, .defaults .node attrs, hp, hs =>
    ⟨⟨hp.graph, ⟨spellable_extend hp.defaults.node hs, hp.defaults.edge⟩, hp.members⟩,
      fun _ h => h⟩
  | p, .defaults .edge attrs, hp, hs =>
    ⟨⟨hp.graph, ⟨hp.defaults.node, spellable_extend hp.defaults.edge hs⟩, hp.members⟩,
      fun _ h => h⟩
  | p, .block body, hp, hs => by
    have hinner : Sound { graph := p.graph, defaults := p.defaults } :=
      ⟨hp.graph, hp.defaults, fun _ h => nomatch h⟩
    obtain ⟨h, hsub⟩ := sound_runStmts false hinner hs
    refine ⟨⟨h.graph, hp.defaults, ?_⟩, hsub⟩
    intro v hv
    rcases (mem_foldl_addMember _ _ _).mp hv with hv | hv
    · exact hsub (hp.members hv)
    · exact h.members hv

theorem canonical_runEnds : ∀ {g : Graph} {defaults : Defaults} {ends : List Endpoint},
    g.Canonical → SpellableDefaults defaults → SpellableEnds ends →
    (runEnds g defaults ends).1.Canonical ∧ g.nodes ⊆ (runEnds g defaults ends).1.nodes ∧
      (runEnds g defaults ends).2.flatten ⊆ (runEnds g defaults ends).1.nodes
  | _, _, [], hg, _, _ => ⟨hg, fun _ h => h, fun _ h => nomatch h⟩
  | g, defaults, e :: rest, hg, hd, hs => by
    obtain ⟨h1, hsub1, hgroup⟩ := canonical_runEnd hg hd hs.1
    obtain ⟨h2, hsub2, hgroups⟩ := canonical_runEnds h1 hd hs.2
    refine ⟨h2, fun _ h => hsub2 (hsub1 h), ?_⟩
    intro v hv
    rcases List.mem_append.mp hv with hv | hv
    · exact hsub2 (hgroup hv)
    · exact hgroups hv

theorem canonical_runEnd : ∀ {g : Graph} {defaults : Defaults} {e : Endpoint},
    g.Canonical → SpellableDefaults defaults → SpellableEnd e →
    (runEnd g defaults e).1.Canonical ∧ g.nodes ⊆ (runEnd g defaults e).1.nodes ∧
      (runEnd g defaults e).2 ⊆ (runEnd g defaults e).1.nodes
  | g, defaults, .node id, hg, hd, hs => by
    refine ⟨canonical_mention hg hd.node hs, ?_, ?_⟩
    · intro v hv
      exact (mem_nodes_mention g defaults id v).mpr (.inl hv)
    · intro v hv
      exact (mem_nodes_mention g defaults id v).mpr (.inr (List.mem_singleton.mp hv))
  | g, defaults, .block body, hg, hd, hs => by
    have hinner : Sound { graph := g, defaults } := ⟨hg, hd, fun _ h => nomatch h⟩
    obtain ⟨h, hsub⟩ := sound_runStmts false hinner hs
    exact ⟨h.graph, hsub, h.members⟩

end

theorem canonical_graph {d : Document} (hname : ∀ name, d.name = some name → Spellable name)
    (hbody : SpellableStmts d.body) : d.graph.Canonical := by
  have hstart : Sound
      { graph := { directed := d.directed, strict := d.strict, name := d.name }
        defaults := {} } := {
    graph := {
      nodup := .nil
      ends := fun _ h => nomatch h
      entries := fun _ h => nomatch h
      strict := fun _ => .nil
      spellable := {
        name := hname
        nodes := fun _ h => nomatch h
        edges := fun _ h => nomatch h
        nodeAttrs := fun _ h => nomatch h
        attrs := fun _ h => nomatch h } }
    defaults := ⟨(fun _ h => nomatch h), fun _ h => nomatch h⟩
    members := fun _ h => nomatch h }
  exact (sound_runStmts true hstart hbody).1.graph

/-! ## The tree of a canonical graph -/

theorem runStmts_append (outermost : Bool) (p : Progress) (a b : List Stmt) :
    runStmts outermost p (a ++ b) = runStmts outermost (runStmts outermost p a) b := by
  induction a generalizing p with
  | nil => rfl
  | cons s a ih => exact ih _

theorem runStmts_attrs (p : Progress) (entries : List (String × String)) :
    runStmts true p (entries.map fun e => .defaults .graph [e]) =
      { p with graph := { p.graph with attrs := p.graph.attrs.extend entries } } := by
  induction entries generalizing p with
  | nil => rfl
  | cons e entries ih => exact ih _

theorem overlayNode_new {g : Graph} {id : String} (h : g.nodeAttrs.get? id = none)
    (attrs : Attrs) : ∃ table, g.overlayNode id attrs.entries = { g with nodeAttrs := table } ∧
      ∀ k, table.get? k = if k = id ∧ attrs ≠ ∅ then some attrs else g.nodeAttrs.get? k := by
  unfold Graph.overlayNode
  by_cases he : attrs = ∅
  · subst he
    exact ⟨g.nodeAttrs, rfl, fun k => by simp⟩
  · have hne : ¬ attrs.entries.isEmpty = true := fun hnil => he (Table.isEmpty_iff.mp hnil)
    refine ⟨g.nodeAttrs.insert id attrs, ?_, ?_⟩
    · have hall : (∅ : Attrs).extend attrs.entries = attrs := Table.ofList_entries attrs
      rw [if_neg hne, h, Option.getD_none, hall]
    · intro k
      rw [Table.get?_insert]
      simp [he]

/-- Statements of new nodes under no defaults add the nodes with their attributes. -/
theorem runStmts_nodes {p : Progress} (hd : p.defaults.node = ∅) (attrsOf : String → Attrs)
    {ids : List String} (hids : (p.graph.nodes ++ ids).Nodup)
    (hnew : ∀ id ∈ ids, p.graph.nodeAttrs.get? id = none) :
    ∃ table members, runStmts true p (ids.map fun id => .node id (attrsOf id).entries) =
        { graph := { p.graph with nodes := p.graph.nodes ++ ids, nodeAttrs := table }
          defaults := p.defaults
          members } ∧
      ∀ k, table.get? k = if k ∈ ids ∧ attrsOf k ≠ ∅ then some (attrsOf k)
        else p.graph.nodeAttrs.get? k := by
  induction ids generalizing p with
  | nil =>
    refine ⟨p.graph.nodeAttrs, p.members, ?_, fun k => by simp⟩
    simp [runStmts]
  | cons id ids ih =>
    have hfresh : ¬ p.graph.nodes.contains id = true := by
      intro hmem
      exact (List.nodup_append.mp hids).2.2 id (by simpa using hmem) id List.mem_cons_self rfl
    have hlast : id ∉ ids := (List.nodup_cons.mp (List.nodup_append.mp hids).2.1).1
    have hmention : mention p.graph p.defaults id =
        { p.graph with nodes := p.graph.nodes ++ [id] } := by
      rw [mention, if_neg hfresh, hd, Graph.addNode, if_neg hfresh]
      rfl
    obtain ⟨table, htable, hget⟩ := overlayNode_new
      (g := { p.graph with nodes := p.graph.nodes ++ [id] }) (hnew id List.mem_cons_self)
      (attrsOf id)
    let q : Progress :=
      { graph := { p.graph with nodes := p.graph.nodes ++ [id], nodeAttrs := table }
        defaults := p.defaults
        members := addMember p.members id }
    have hstep : runStmt true p (.node id (attrsOf id).entries) = q := by
      rw [runStmt, hmention, htable]
    have hqnew : ∀ v ∈ ids, q.graph.nodeAttrs.get? v = none := by
      intro v hv
      have hne : v ≠ id := fun he => hlast (he ▸ hv)
      show table.get? v = none
      rw [hget, if_neg fun h => hne h.1]
      exact hnew v (List.mem_cons_of_mem _ hv)
    obtain ⟨table', members, hrun, hget'⟩ := ih (p := q) hd (by simpa [q] using hids) hqnew
    refine ⟨table', members, ?_, ?_⟩
    · rw [List.map_cons, runStmts, hstep, hrun]
      simp [q]
    · intro k
      rw [hget' k]
      show (if k ∈ ids ∧ attrsOf k ≠ ∅ then _ else table.get? k) = _
      rw [hget]
      by_cases hk : k = id
      · subst hk
        simp [hlast]
      · simp [hk]

/-- Statements of edges between nodes of the graph add the edges. -/
theorem runStmts_edges {p : Progress} (hd : p.defaults.edge = ∅) {edges : List Edge}
    (hends : ∀ e ∈ edges, e.source ∈ p.graph.nodes ∧ e.target ∈ p.graph.nodes)
    (hapart : p.graph.strict = true → Apart p.graph.directed (p.graph.edges ++ edges)) :
    (runStmts true p (edges.map fun e =>
      .edges [.node e.source, .node e.target] e.attrs.entries)).graph =
      { p.graph with edges := p.graph.edges ++ edges } := by
  induction edges generalizing p with
  | nil => simp [runStmts]
  | cons e edges ih =>
    obtain ⟨hs, ht⟩ := hends e List.mem_cons_self
    have hends' : runEnds p.graph p.defaults [.node e.source, .node e.target] =
        (p.graph, [[e.source], [e.target]]) := by
      simp [runEnds, runEnd, mention, hs, ht]
    have hedge : edgesBetween ((∅ : Attrs).extend e.attrs.entries) [[e.source], [e.target]] =
        [e] := by
      have hall : (∅ : Attrs).extend e.attrs.entries = e.attrs := Table.ofList_entries e.attrs
      rw [hall]
      rfl
    have hdeclare : declareEdges p.graph [e] = { p.graph with edges := p.graph.edges ++ [e] } := by
      cases hstrict : p.graph.strict with
      | false => simp [declareEdges, hstrict]
      | true =>
        have hnone : mergeEdge? p.graph.directed e p.graph.edges = none := by
          apply mergeEdge?_eq_none
          intro f hf
          rw [Edge.sameEnds_comm]
          exact (List.pairwise_append.mp (hapart hstrict)).2.2 f hf e List.mem_cons_self
        simp [declareEdges, hstrict, joinEdge, hnone]
    let q : Progress :=
      { graph := { p.graph with edges := p.graph.edges ++ [e] }
        defaults := p.defaults
        members := addMember (addMember p.members e.source) e.target }
    have hstep : runStmt true p (.edges [.node e.source, .node e.target] e.attrs.entries) = q := by
      simp only [runStmt, hends', hd, hedge, hdeclare]
      rfl
    have hrun := ih (p := q) hd (fun f hf => hends f (List.mem_cons_of_mem _ hf))
      (by simpa [q] using hapart)
    rw [List.map_cons, runStmts, hstep, hrun]
    simp [q]

/-- A canonical graph is what the tree of its canonical text means. -/
theorem graph_tree {g : Graph} (h : g.Canonical) : (tree g).graph = g := by
  let attrsOf (id : String) : Attrs := (g.nodeAttrs.get? id).getD ∅
  let header : Graph := { directed := g.directed, strict := g.strict, name := g.name }
  let p : Progress := { graph := { header with attrs := g.attrs }, defaults := {} }
  have hattrs : runStmts true { graph := header, defaults := {} }
      (g.attrs.entries.map fun e => .defaults .graph [e]) = p := by
    have hall : (∅ : Attrs).extend g.attrs.entries = g.attrs := Table.ofList_entries g.attrs
    rw [runStmts_attrs, show header.attrs = ∅ from rfl, hall]
  obtain ⟨table, members, hnodes, hget⟩ := runStmts_nodes (p := p) rfl attrsOf h.nodup
    (fun _ _ => rfl)
  have htable : table = g.nodeAttrs := by
    apply Table.ext_get?
    intro k
    rw [hget]
    cases hk : g.nodeAttrs.get? k with
    | none => simp [attrsOf, hk, p, header]
    | some attrs =>
      obtain ⟨hmem, hne⟩ := h.entries _ (Table.mem_entries.mpr hk)
      simp only [attrsOf, hk, Option.getD_some]
      rw [if_pos ⟨hmem, hne⟩]
  subst htable
  let q : Progress :=
    { graph := { p.graph with nodes := g.nodes, nodeAttrs := g.nodeAttrs }
      defaults := {}
      members }
  have hnodes : runStmts true p (g.nodes.map fun id => .node id (attrsOf id).entries) = q := hnodes
  have hedges := runStmts_edges (p := q) rfl h.ends h.strict
  show (runStmts true { graph := header, defaults := {} } (_ ++ _ ++ _)).graph = g
  rw [runStmts_append, runStmts_append, hattrs, hnodes, hedges]
  rfl

end Dot
end Tiered
