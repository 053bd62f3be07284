import Tiered.Proofs.Dot.Canonical

/-!
# What a syntax tree means, said without running it

Every point of a syntax tree has the statements in its sight: those earlier in its own block, and
those earlier than its block, or than a block around it, in the block around that one.

* `settings`: the attributes that statements of defaults give, nested ones left out;
* `mentionsIn`, `edgesIn`: the ids that statements mention and the edges they declare, in the
  order of the text, each with what is in its sight;
* `runStmts_eq`: running statements makes these mentions and declares these edges;
* `graph_means`: the graph of a document by its mentions, its edges and its settings.
-/
namespace Tiered.Dot

/-! ## Sight -/

/-- The attributes that the statements themselves set for `target`, in the order of the text. -/
def settings (target : Target) (stmts : List Stmt) : AttrList :=
  stmts.flatMap fun
    | .defaults t attrs => if t = target then attrs else []
    | _ => []

/-- A place where an id stands for a node. -/
structure Mention where
  id : String
  /-- The statements in the sight of that place. -/
  sight : List Stmt
  /-- The attributes that stand there, if it is a statement of its own. -/
  own : AttrList := []

mutual

/-- The mentions in the rest of a block, behind the statements `sight`. -/
def mentionsIn (sight : List Stmt) : List Stmt → List Mention
  | [] => []
  | s :: rest => mentionsOf sight s ++ mentionsIn (sight ++ [s]) rest
termination_by structural x => x

def mentionsOf (sight : List Stmt) : Stmt → List Mention
  | .node id attrs => [{ id, sight, own := attrs }]
  | .edges ends _ => mentionsOfEnds sight ends
  | .defaults _ _ => []
  | .block body => mentionsIn sight body
termination_by structural x => x

def mentionsOfEnds (sight : List Stmt) : List Endpoint → List Mention
  | [] => []
  | e :: rest => mentionsOfEnd sight e ++ mentionsOfEnds sight rest
termination_by structural x => x

def mentionsOfEnd (sight : List Stmt) : Endpoint → List Mention
  | .node id => [{ id, sight }]
  | .block body => mentionsIn sight body
termination_by structural x => x

end

/-- The ids mentioned, each once, in the order of first mention. -/
def distinct (mentions : List Mention) : List String := (mentions.map Mention.id).eraseDups

/-- All edges from the members of each endpoint to those of the next. -/
def product (attrs : Attrs) (groups : List (List String)) : List Edge :=
  (groups.zip groups.tail).flatMap fun (sources, targets) =>
    sources.flatMap fun s => targets.map fun t => { source := s, target := t, attrs }

mutual

/-- The edges that the rest of a block declares, behind the statements `sight`. -/
def edgesIn (sight : List Stmt) : List Stmt → List Edge
  | [] => []
  | s :: rest => edgesOf sight s ++ edgesIn (sight ++ [s]) rest
termination_by structural x => x

def edgesOf (sight : List Stmt) : Stmt → List Edge
  | .node _ _ => []
  | .edges ends attrs =>
    edgesOfEnds sight ends ++
      product (.ofList (settings .edge sight ++ attrs))
        (ends.map fun e => distinct (mentionsOfEnd sight e))
  | .defaults _ _ => []
  | .block body => edgesIn sight body
termination_by structural x => x

def edgesOfEnds (sight : List Stmt) : List Endpoint → List Edge
  | [] => []
  | e :: rest => edgesOfEnd sight e ++ edgesOfEnds sight rest
termination_by structural x => x

def edgesOfEnd (sight : List Stmt) : Endpoint → List Edge
  | .node _ => []
  | .block body => edgesIn sight body
termination_by structural x => x

end

/-- The lists of the statements that `id` has of its own. -/
def ownAttrs (mentions : List Mention) (id : String) : AttrList :=
  (mentions.filter (·.id = id)).flatMap Mention.own

/-- The node defaults in the sight of the first mention of `id`. -/
def firstSettings (mentions : List Mention) (id : String) : AttrList :=
  match mentions.find? (·.id = id) with
  | some m => settings .node m.sight
  | none => []

/-- The entry that attributes make, which is none if there are no attributes. -/
def recorded? (attrs : AttrList) : Option Attrs :=
  if attrs = [] then none else some (.ofList attrs)

/-- A graph is what a document says. -/
structure Document.Means (d : Document) (g : Graph) : Prop where
  directed : g.directed = d.directed
  strict : g.strict = d.strict
  name : g.name = d.name
  nodes : g.nodes = distinct (mentionsIn [] d.body)
  nodeAttrs : ∀ id, g.nodeAttrs.get? id =
    recorded? (firstSettings (mentionsIn [] d.body) id ++ ownAttrs (mentionsIn [] d.body) id)
  /-- What a node says itself goes before what it gets by default. -/
  nodeAttr : ∀ id key, g.nodeAttr? id key =
    ((ownAttrs (mentionsIn [] d.body) id).reverse.lookup key).or
      ((firstSettings (mentionsIn [] d.body) id).reverse.lookup key)
  edges : g.edges = if d.strict then (edgesIn [] d.body).foldl (joinEdge d.directed) []
    else edgesIn [] d.body
  attrs : g.attrs = .ofList (settings .graph d.body)

/-! ## Members -/

theorem addMember_of_mem {members : List String} {id : String} (h : id ∈ members) :
    addMember members id = members := by
  rw [addMember, if_pos (List.contains_iff_mem.mpr h)]

theorem addMember_of_not_mem {members : List String} {id : String} (h : id ∉ members) :
    addMember members id = members ++ [id] := by
  rw [addMember, if_neg fun hc => h (List.contains_iff_mem.mp hc)]

/-- Adding members one by one adds each of the new ones once. -/
theorem foldl_addMember (members ids : List String) :
    ids.foldl addMember members = members ++ (ids.filter (!members.contains ·)).eraseDups := by
  induction ids generalizing members with
  | nil => simp
  | cons id ids ih =>
    rw [List.foldl_cons, ih]
    by_cases h : id ∈ members
    · rw [addMember_of_mem h, List.filter_cons_of_neg (by simpa using h)]
    · rw [addMember_of_not_mem h, List.filter_cons_of_pos (by simpa using h), List.eraseDups_cons,
        List.append_assoc, List.singleton_append, List.filter_filter]
      congr 3
      apply List.filter_congr
      intro v _
      by_cases hv : v = id <;> simp [hv]

theorem foldl_addMember_nil (ids : List String) : ids.foldl addMember [] = ids.eraseDups := by
  rw [foldl_addMember, List.nil_append, List.filter_eq_self.mpr (by simp)]

theorem foldl_addMember_foldl (members first ids : List String) :
    (ids.foldl addMember first).foldl addMember members =
      (first ++ ids).foldl addMember members := by
  induction ids generalizing first with
  | nil => rw [List.foldl_nil, List.append_nil]
  | cons id ids ih =>
    rw [List.foldl_cons, ih]
    by_cases h : id ∈ first
    · have hmem : id ∈ first.foldl addMember members :=
        (mem_foldl_addMember members first id).mpr (.inr h)
      rw [addMember_of_mem h, List.foldl_append, List.foldl_append, List.foldl_cons,
        addMember_of_mem hmem]
    · rw [addMember_of_not_mem h, List.append_assoc, List.singleton_append]

/-- To add members as they come, or each once in the order of their first coming, is the same. -/
theorem foldl_addMember_eraseDups (members ids : List String) :
    ids.eraseDups.foldl addMember members = ids.foldl addMember members := by
  rw [← foldl_addMember_nil, foldl_addMember_foldl, List.nil_append]

theorem foldl_distinct (members : List String) (mentions : List Mention) :
    (distinct mentions).foldl addMember members =
      (mentions.map Mention.id).foldl addMember members := foldl_addMember_eraseDups _ _

theorem foldl_groups (members : List String) (sight : List Stmt) (ends : List Endpoint) :
    (ends.map fun e => distinct (mentionsOfEnd sight e)).flatten.foldl addMember members =
      ((mentionsOfEnds sight ends).map Mention.id).foldl addMember members := by
  induction ends generalizing members with
  | nil => rfl
  | cons e ends ih =>
    rw [List.map_cons, List.flatten_cons, List.foldl_append, foldl_distinct, ih, mentionsOfEnds,
      List.map_append, List.foldl_append]

/-! ## Settings -/

theorem settings_append (target : Target) (a b : List Stmt) :
    settings target (a ++ b) = settings target a ++ settings target b := List.flatMap_append

/-- The defaults that statements leave in force. -/
def inForce (sight : List Stmt) : Defaults :=
  { node := .ofList (settings .node sight), edge := .ofList (settings .edge sight) }

theorem extend_append (t : Attrs) (a b : AttrList) : t.extend (a ++ b) = (t.extend a).extend b :=
  List.foldl_append

theorem ofList_append (a b : AttrList) :
    Table.ofList (a ++ b) = (Table.ofList a).extend b := extend_append ∅ a b

theorem inForce_append (sight : List Stmt) (s : Stmt) :
    inForce (sight ++ [s]) =
      { node := (inForce sight).node.extend (settings .node [s])
        edge := (inForce sight).edge.extend (settings .edge [s]) } := by
  simp only [inForce, settings_append, ofList_append]

/-! ## Edges -/

theorem edgesBetween_eq_product (attrs : Attrs) (groups : List (List String)) :
    edgesBetween attrs groups = product attrs groups := by
  fun_induction edgesBetween attrs groups with
  | case1 sources targets rest ih =>
    rw [ih]
    rfl
  | case2 groups h =>
    cases groups with
    | nil => rfl
    | cons a rest =>
      cases rest with
      | nil => rfl
      | cons b rest => exact absurd rfl (h a b rest)

theorem declareEdges_nil (g : Graph) : declareEdges g [] = g := by
  have hedges : (if g.strict then [].foldl (joinEdge g.directed) g.edges else g.edges ++ []) =
      g.edges := by
    rw [List.append_nil]
    exact ite_self g.edges
  rw [declareEdges, hedges]

theorem declareEdges_append (g : Graph) (a b : List Edge) :
    declareEdges (declareEdges g a) b = declareEdges g (a ++ b) := by
  unfold declareEdges
  cases g.strict with
  | true => simp only [if_true, List.foldl_append]
  | false => simp only [Bool.false_eq_true, if_false, List.append_assoc]

/-! ## Mentions -/

/-- Overlays attributes of a node among those of all nodes. -/
def overlay (table : Table Attrs) (id : String) (attrs : AttrList) : Table Attrs :=
  if attrs = [] then table else table.insert id (((table.get? id).getD ∅).extend attrs)

theorem overlayNode_eq (g : Graph) (id : String) (attrs : AttrList) :
    g.overlayNode id attrs = { g with nodeAttrs := overlay g.nodeAttrs id attrs } := by
  cases attrs with
  | nil => rfl
  | cons => rfl

/-- Makes one mention: a new node gets the defaults in its sight, and then its own attributes. -/
def note (g : Graph) (m : Mention) : Graph :=
  (mention g (inForce m.sight) m.id).overlayNode m.id m.own

/-- The attributes of all nodes after a mention. -/
def notedAttrs (g : Graph) (m : Mention) : Table Attrs :=
  overlay (if m.id ∈ g.nodes then g.nodeAttrs
    else overlay g.nodeAttrs m.id (inForce m.sight).node.entries) m.id m.own

theorem mention_eq (g : Graph) (defaults : Defaults) (id : String) :
    mention g defaults id = { g with
      nodes := addMember g.nodes id
      nodeAttrs := if id ∈ g.nodes then g.nodeAttrs
        else overlay g.nodeAttrs id defaults.node.entries } := by
  unfold mention
  by_cases h : id ∈ g.nodes
  · rw [if_pos (List.contains_iff_mem.mpr h), if_pos h, addMember_of_mem h]
  · have hc : ¬ g.nodes.contains id = true := fun hc => h (List.contains_iff_mem.mp hc)
    rw [if_neg hc, if_neg h, addMember_of_not_mem h, overlayNode_eq, Graph.addNode, if_neg hc]

theorem note_eq (g : Graph) (m : Mention) :
    note g m = { g with nodes := addMember g.nodes m.id, nodeAttrs := notedAttrs g m } := by
  rw [note, mention_eq, overlayNode_eq]
  rfl

/-- Mentions only say something about nodes. -/
theorem foldl_note_eq (g : Graph) (mentions : List Mention) :
    mentions.foldl note g = { g with
      nodes := (mentions.foldl note g).nodes
      nodeAttrs := (mentions.foldl note g).nodeAttrs } := by
  induction mentions generalizing g with
  | nil => rfl
  | cons m mentions ih =>
    rw [List.foldl_cons, ih, note_eq]

theorem foldl_note_with (g : Graph) (edges : List Edge) (attrs : Attrs) (mentions : List Mention) :
    mentions.foldl note { g with edges, attrs } =
      { mentions.foldl note g with edges, attrs } := by
  induction mentions generalizing g with
  | nil => rfl
  | cons m mentions ih =>
    have hnote : note { g with edges, attrs } m = { note g m with edges, attrs } := by
      rw [note_eq, note_eq]
      rfl
    rw [List.foldl_cons, hnote, ih, List.foldl_cons]

/-- What running statements does to a graph: the mentions they make, the edges they declare and
the attributes they give the graph itself. -/
def perform (g : Graph) (mentions : List Mention) (edges : List Edge) (attrs : AttrList) : Graph :=
  { mentions.foldl note g with
    edges := (declareEdges g edges).edges
    attrs := g.attrs.extend attrs }

theorem perform_append (g : Graph) (ms ns : List Mention) (es fs : List Edge) (as bs : AttrList) :
    perform (perform g ms es as) ns fs bs = perform g (ms ++ ns) (es ++ fs) (as ++ bs) := by
  have hedges : (declareEdges (perform g ms es as) fs).edges =
      (declareEdges g (es ++ fs)).edges := by
    rw [← declareEdges_append, perform, foldl_note_eq]
    rfl
  have hattrs : (perform g ms es as).attrs.extend bs = g.attrs.extend (as ++ bs) :=
    (extend_append g.attrs as bs).symm
  rw [perform, hedges, hattrs, perform, perform, foldl_note_with, List.foldl_append]

theorem perform_mentions (g : Graph) (mentions : List Mention) :
    perform g mentions [] [] = mentions.foldl note g := by
  rw [perform, declareEdges_nil, foldl_note_eq]
  rfl

theorem perform_attrs (g : Graph) (attrs : AttrList) :
    perform g [] [] attrs = { g with attrs := g.attrs.extend attrs } := by
  rw [perform, declareEdges_nil]
  rfl

theorem perform_edges (g : Graph) (edges : List Edge) :
    perform g [] edges [] = declareEdges g edges := rfl

/-! ## Running statements -/

theorem graph_settings_eq_nil {s : Stmt} (h : settings .graph [s] = []) (outermost : Bool) :
    (if outermost then settings .graph [s] else []) = [] := by
  rw [h, ite_self]

mutual

/-- Running statements makes their mentions, declares their edges and leaves their defaults. -/
theorem runStmts_eq (outermost : Bool) (p : Progress) (sight : List Stmt)
    (hd : p.defaults = inForce sight) : ∀ stmts : List Stmt,
    runStmts outermost p stmts =
      { graph := perform p.graph (mentionsIn sight stmts) (edgesIn sight stmts)
          (if outermost then settings .graph stmts else [])
        defaults := inForce (sight ++ stmts)
        members := ((mentionsIn sight stmts).map Mention.id).foldl addMember p.members }
  | [] => by
    have hattrs : (if outermost then settings .graph [] else []) = [] := by cases outermost <;> rfl
    rw [runStmts, mentionsIn, edgesIn, hattrs, perform_mentions, List.append_nil, ← hd]
    rfl
  | s :: rest => by
    have hs := runStmt_eq outermost p sight hd s
    have hrest := runStmts_eq outermost (runStmt outermost p s) (sight ++ [s]) (by rw [hs]) rest
    have hattrs : (if outermost then settings .graph [s] else []) ++
        (if outermost then settings .graph rest else []) =
          if outermost then settings .graph (s :: rest) else [] := by
      cases outermost with
      | true => exact (settings_append .graph [s] rest).symm
      | false => rfl
    rw [runStmts, hrest, hs, mentionsIn, edgesIn, perform_append, hattrs, List.append_assoc,
      List.singleton_append, List.map_append, List.foldl_append]
termination_by structural x => x

theorem runStmt_eq (outermost : Bool) (p : Progress) (sight : List Stmt)
    (hd : p.defaults = inForce sight) : ∀ s : Stmt,
    runStmt outermost p s =
      { graph := perform p.graph (mentionsOf sight s) (edgesOf sight s)
          (if outermost then settings .graph [s] else [])
        defaults := inForce (sight ++ [s])
        members := ((mentionsOf sight s).map Mention.id).foldl addMember p.members }
  | .node id attrs => by
    have hattrs := graph_settings_eq_nil (s := .node id attrs) rfl outermost
    rw [runStmt, hd, hattrs, inForce_append, mentionsOf, edgesOf, perform_mentions]
    rfl
  | .edges ends attrs => by
    have hends := runEnds_eq p.graph sight ends
    have hattrs := graph_settings_eq_nil (s := .edges ends attrs) rfl outermost
    have hproduct : edgesBetween ((inForce sight).edge.extend attrs) =
        product (.ofList (settings .edge sight ++ attrs)) := by
      funext groups
      rw [edgesBetween_eq_product, ofList_append]
      rfl
    simp only [runStmt, hd, hends, hproduct]
    rw [← perform_edges, perform_append, hattrs, inForce_append, foldl_groups, mentionsOf, edgesOf,
      List.append_nil, List.append_nil]
    rfl
  | .defaults .graph attrs => by
    rw [runStmt, inForce_append, ← hd, mentionsOf, edgesOf]
    cases outermost with
    | true =>
      have hattrs : settings .graph [.defaults .graph attrs] = attrs := List.append_nil attrs
      simp only [if_true, hattrs, perform_attrs]
      rfl
    | false =>
      simp only [Bool.false_eq_true, if_false, perform_mentions]
      rfl
  | .defaults .node attrs => by
    have hattrs := graph_settings_eq_nil (s := .defaults .node attrs) rfl outermost
    have hnode : settings .node [.defaults .node attrs] = attrs := List.append_nil attrs
    rw [runStmt, hd, hattrs, inForce_append, hnode, mentionsOf, edgesOf, perform_mentions]
    rfl
  | .defaults .edge attrs => by
    have hattrs := graph_settings_eq_nil (s := .defaults .edge attrs) rfl outermost
    have hedge : settings .edge [.defaults .edge attrs] = attrs := List.append_nil attrs
    rw [runStmt, hd, hattrs, inForce_append, hedge, mentionsOf, edgesOf, perform_mentions]
    rfl
  | .block body => by
    have hbody := runStmts_eq false { graph := p.graph, defaults := p.defaults } sight hd body
    have hattrs := graph_settings_eq_nil (s := .block body) rfl outermost
    simp only [runStmt, hbody]
    rw [hattrs, inForce_append, ← hd, mentionsOf, edgesOf, foldl_addMember_nil,
      foldl_addMember_eraseDups]
    rfl
termination_by structural x => x

theorem runEnds_eq (g : Graph) (sight : List Stmt) : ∀ ends : List Endpoint,
    runEnds g (inForce sight) ends =
      (perform g (mentionsOfEnds sight ends) (edgesOfEnds sight ends) [],
        ends.map fun e => distinct (mentionsOfEnd sight e))
  | [] => by
    rw [runEnds, mentionsOfEnds, edgesOfEnds, perform_mentions]
    rfl
  | e :: rest => by
    have he := runEnd_eq g sight e
    have hrest := runEnds_eq (runEnd g (inForce sight) e).1 sight rest
    rw [he] at hrest
    simp only [runEnds, he, hrest, perform_append, mentionsOfEnds, edgesOfEnds, List.append_nil,
      List.map_cons]
termination_by structural x => x

theorem runEnd_eq (g : Graph) (sight : List Stmt) : ∀ e : Endpoint,
    runEnd g (inForce sight) e =
      (perform g (mentionsOfEnd sight e) (edgesOfEnd sight e) [],
        distinct (mentionsOfEnd sight e))
  | .node id => by
    rw [runEnd, mentionsOfEnd, edgesOfEnd, perform_mentions]
    rfl
  | .block body => by
    have hbody := runStmts_eq false { graph := g, defaults := inForce sight } sight rfl body
    simp only [runEnd, hbody, mentionsOfEnd, edgesOfEnd, distinct, foldl_addMember_nil,
      Bool.false_eq_true, if_false]
termination_by structural x => x

end

/-! ## The graph of a document -/

theorem recorded?_getD (attrs : AttrList) : (recorded? attrs).getD ∅ = .ofList attrs := by
  unfold recorded?
  split
  · rename_i h
    rw [h]
    rfl
  · rfl

theorem recorded?_entries (attrs : AttrList) :
    recorded? (Table.ofList attrs).entries = recorded? attrs := by
  by_cases h : attrs = []
  · rw [h]
    rfl
  · have hne : (Table.ofList attrs).entries ≠ [] :=
      fun hnil => extend_ne_empty ∅ h (Table.ext_entries hnil)
    rw [recorded?, if_neg hne, recorded?, if_neg h, Table.ofList_entries]

theorem get?_overlay {table : Table Attrs} {id : String} {before : AttrList}
    (h : table.get? id = recorded? before) (attrs : AttrList) :
    (overlay table id attrs).get? id = recorded? (before ++ attrs) := by
  unfold overlay
  by_cases hattrs : attrs = []
  · rw [if_pos hattrs, hattrs, List.append_nil, h]
  · have hne : before ++ attrs ≠ [] := List.append_ne_nil_of_right_ne_nil _ hattrs
    rw [if_neg hattrs, Table.get?_insert, if_pos rfl, h, recorded?_getD, recorded?, if_neg hne,
      ofList_append]

theorem get?_overlay_ne {table : Table Attrs} {id k : String} (h : k ≠ id) (attrs : AttrList) :
    (overlay table id attrs).get? k = table.get? k := by
  unfold overlay
  split
  · rfl
  · rw [Table.get?_insert, if_neg h]

theorem mem_distinct {mentions : List Mention} {id : String} :
    id ∈ distinct mentions ↔ ∃ m ∈ mentions, m.id = id := by
  rw [distinct, List.mem_eraseDups, List.mem_map]

theorem ownAttrs_append (mentions : List Mention) (m : Mention) (id : String) :
    ownAttrs (mentions ++ [m]) id = ownAttrs mentions id ++ if m.id = id then m.own else [] := by
  rw [ownAttrs, List.filter_append, List.flatMap_append]
  by_cases h : m.id = id
  · simp [ownAttrs, h]
  · simp [ownAttrs, h]

theorem firstSettings_append (mentions : List Mention) (m : Mention) (id : String) :
    firstSettings (mentions ++ [m]) id =
      if id ∈ distinct mentions then firstSettings mentions id
      else if m.id = id then settings .node m.sight else [] := by
  rw [firstSettings, List.find?_append, firstSettings]
  cases hfind : mentions.find? (·.id = id) with
  | some first =>
    have hid : first.id = id := by simpa using List.find?_some hfind
    rw [if_pos (mem_distinct.mpr ⟨first, List.mem_of_find?_eq_some hfind, hid⟩)]
    rfl
  | none =>
    have hnew : id ∉ distinct mentions := by
      intro hmem
      obtain ⟨first, hfirst, hid⟩ := mem_distinct.mp hmem
      exact List.find?_eq_none.mp hfind first hfirst (by simpa using hid)
    rw [if_neg hnew]
    by_cases h : m.id = id
    · simp [h]
    · simp [h]

/-- The nodes of a graph are those that have been mentioned, with the attributes that say so. -/
structure Noted (mentions : List Mention) (g : Graph) : Prop where
  nodes : g.nodes = distinct mentions
  nodeAttrs : ∀ id, g.nodeAttrs.get? id =
    recorded? (firstSettings mentions id ++ ownAttrs mentions id)

/-- Nothing is known of an id that has not been mentioned. -/
theorem attrs_of_not_mentioned {mentions : List Mention} {id : String}
    (h : id ∉ distinct mentions) :
    firstSettings mentions id = [] ∧ ownAttrs mentions id = [] := by
  have hnone : ∀ m ∈ mentions, ¬ m.id = id := fun m hm he => h (mem_distinct.mpr ⟨m, hm, he⟩)
  constructor
  · rw [firstSettings, List.find?_eq_none.mpr (by simpa using hnone)]
  · rw [ownAttrs, List.filter_eq_nil_iff.mpr (by simpa using hnone)]
    rfl

theorem Noted.note {mentions : List Mention} {g : Graph} (h : Noted mentions g) (m : Mention) :
    Noted (mentions ++ [m]) (Dot.note g m) := by
  rw [note_eq]
  constructor
  · have hids : (mentions ++ [m]).map Mention.id = mentions.map Mention.id ++ [m.id] :=
      List.map_append
    rw [distinct, hids, ← foldl_addMember_nil, List.foldl_append, foldl_addMember_nil, h.nodes]
    rfl
  · intro id
    simp only [notedAttrs, h.nodes]
    rw [firstSettings_append, ownAttrs_append]
    by_cases hid : m.id = id
    · subst hid
      rw [if_pos rfl, if_pos rfl, ← List.append_assoc]
      apply get?_overlay
      by_cases hmem : m.id ∈ distinct mentions
      · rw [if_pos hmem, if_pos hmem, h.nodeAttrs]
      · obtain ⟨hfirst, hown⟩ := attrs_of_not_mentioned hmem
        have hnone : g.nodeAttrs.get? m.id = recorded? [] := by rw [h.nodeAttrs, hfirst, hown]; rfl
        rw [if_neg hmem, if_neg hmem, hown, List.append_nil, get?_overlay hnone, List.nil_append]
        exact recorded?_entries _
    · rw [if_neg hid, if_neg hid, List.append_nil, get?_overlay_ne (Ne.symm hid)]
      by_cases hmem : id ∈ distinct mentions
      · rw [if_pos hmem, ← h.nodeAttrs]
        split
        · rfl
        · exact get?_overlay_ne (Ne.symm hid) _
      · obtain ⟨hfirst, hown⟩ := attrs_of_not_mentioned hmem
        have hnone : g.nodeAttrs.get? id = recorded? ([] ++ ownAttrs mentions id) := by
          rw [h.nodeAttrs, hfirst]
        rw [if_neg hmem, ← hnone]
        split
        · rfl
        · exact get?_overlay_ne (Ne.symm hid) _

theorem Noted.foldl {done : List Mention} {g : Graph} (h : Noted done g)
    (mentions : List Mention) : Noted (done ++ mentions) (mentions.foldl Dot.note g) := by
  induction mentions generalizing done g with
  | nil => rwa [List.append_nil]
  | cons m mentions ih =>
    have hrest := ih (h.note m)
    rwa [List.append_assoc, List.singleton_append] at hrest

theorem Document.graph_eq (d : Document) : d.graph =
    perform { directed := d.directed, strict := d.strict, name := d.name }
      (mentionsIn [] d.body) (edgesIn [] d.body) (settings .graph d.body) := by
  have hrun := runStmts_eq true
    { graph := { directed := d.directed, strict := d.strict, name := d.name }, defaults := {} } []
    rfl d.body
  exact congrArg Progress.graph hrun

theorem get?_ofList_append (defaults own : AttrList) (key : String) :
    (recorded? (defaults ++ own)).bind (·.get? key) =
      (own.reverse.lookup key).or (defaults.reverse.lookup key) := by
  rw [← List.lookup_append, ← List.reverse_append]
  unfold recorded?
  split
  · rename_i h
    rw [h]
    rfl
  · rw [Option.bind_some, Table.ofList, Table.get?_extend, Table.get?_empty, Option.or_none]

/-- **Scoped lowering.** The graph of a document is what its statements say with what they have in
their sight; the members of a block are the ids mentioned in it. -/
theorem Document.graph_means (d : Document) : d.Means d.graph ∧
    ∀ (g : Graph) (sight body : List Stmt),
      (runEnd g (inForce sight) (.block body)).2 = distinct (mentionsIn sight body) := by
  constructor
  · rw [d.graph_eq]
    have hnone : Noted [] { directed := d.directed, strict := d.strict, name := d.name } :=
      ⟨rfl, fun _ => rfl⟩
    have hnoted := hnone.foldl (mentionsIn [] d.body)
    have hframe := foldl_note_eq { directed := d.directed, strict := d.strict, name := d.name }
      (mentionsIn [] d.body)
    exact {
      directed := congrArg Graph.directed hframe
      strict := congrArg Graph.strict hframe
      name := congrArg Graph.name hframe
      nodes := hnoted.nodes
      nodeAttrs := hnoted.nodeAttrs
      nodeAttr := fun id key => by
        rw [Graph.nodeAttr?, ← get?_ofList_append]
        exact congrArg (·.bind (·.get? key)) (hnoted.nodeAttrs id)
      edges := rfl
      attrs := rfl }
  · intro g sight body
    rw [runEnd_eq, mentionsOfEnd]

end Tiered.Dot
