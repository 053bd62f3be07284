import Mathlib.Data.List.Nodup
import Mathlib.Data.Nat.Cast.Defs
import Tiered.Drawing
import Tiered.Proofs.Exact
import Tiered.Proofs.Scene.Svg

/-!
# Drawings hold together

* `markerKind?_eq`: which edges want an arrowhead, told by their attributes;
* `useMarker_spec`: markers stay `Numbered`, so that their ids are distinct, and no kind and color
  has two of them;
* `Drawn`: what is known of the edges drawn so far, kept by one more (`Drawn.add`) and so by all of
  them (`drawn_foldl`);
* `outlineShown`: a node is drawn with the outline of its shape;
* `ids_of_depicted`: the ids of a document that shows a scene are those of the scene;
* `draw_intact`: what is drawn of a layout lacks nothing, and every reference in it is met.
-/

namespace Tiered

variable {K : Type} [Scalar K]

/-- The marker that a path refers to. -/
def Element.markerEnd? : Element K → Option String
  | path _ _ markerEnd => markerEnd
  | _ => none

namespace Drawing

/-! ## What attributes ask for -/

/-- An edge wants an arrowhead unless its attributes turn it down. -/
def WantsArrowhead (attrs : Attrs) : Prop :=
  attrs.get? "dir" ≠ some "none" ∧ attrs.get? "arrowhead" ≠ some "none" ∧
    attrs.get? "arrowhead" ≠ some "undirected"

instance (attrs : Attrs) : Decidable (WantsArrowhead attrs) := inferInstanceAs (Decidable (_ ∧ _))

def arrowKind (attrs : Attrs) : MarkerKind :=
  if attrs.get? "arrowhead" = some "vee" then .vee else .normal

/-- The color of lines, which is dark grey unless attributes name one. -/
def lineColor (attrs : Attrs) : String :=
  ((attrs.get? "color").filter (· ≠ "")).getD "#333"

/-- The color of texts, which is black unless attributes name one. -/
def textColor (attrs : Attrs) : String :=
  ((attrs.get? "fontcolor").filter (· ≠ "")).getD "#000"

/-- Whether nodes or edges with these attributes are drawn. -/
def Visible (attrs : Attrs) : Prop := Look.hasStyle attrs "invis" = false

instance (attrs : Attrs) : Decidable (Visible attrs) := inferInstanceAs (Decidable (_ = _))

theorem markerKind?_eq (attrs : Attrs) :
    markerKind? attrs = if WantsArrowhead attrs then some (arrowKind attrs) else none := by
  unfold markerKind? WantsArrowhead arrowKind
  by_cases hdir : attrs.get? "dir" = some "none"
  · simp [hdir]
  · rw [if_neg hdir]
    split <;> simp_all

/-- The marker that an edge with these attributes asks for. -/
def arrow (attrs : Attrs) (id : String) : Marker := ⟨id, arrowKind attrs, lineColor attrs⟩

/-! ## Markers -/

/-- The id of the marker that is the `n`-th. -/
def markerId (kind : MarkerKind) (n : Nat) : String :=
  "arrowhead-" ++ markerName kind ++ "-" ++ toString n

theorem markerId_inj {k l : MarkerKind} {i j : Nat} (h : markerId k i = markerId l j) : i = j := by
  have hchars := congrArg String.toList h
  simp only [markerId, String.toList_append, List.append_assoc,
    List.append_cancel_left_eq] at hchars
  have hdigits : Nat.toDigits 10 i = Nat.toDigits 10 j := by
    cases k <;> cases l <;> simp [markerName] at hchars <;> exact hchars
  calc
    i = Nat.ofDigitChars 10 (Nat.toDigits 10 i) 0 := Nat.ofDigitChars_ten_toDigits.symm
    _ = Nat.ofDigitChars 10 (Nat.toDigits 10 j) 0 := by rw [hdigits]
    _ = j := Nat.ofDigitChars_ten_toDigits

/-- Markers as they are gathered: each one has the number of those before it in its id, and none of
these is of its kind and color. -/
inductive Numbered : List Marker → Prop where
  | nil : Numbered []
  | snoc {markers : List Marker} {kind : MarkerKind} {color : String} : Numbered markers →
    (∀ m ∈ markers, m.kind = kind → m.color ≠ color) →
    Numbered (markers ++ [⟨markerId kind markers.length, kind, color⟩])

theorem Numbered.exists_markerId {markers : List Marker} (h : Numbered markers) {m : Marker}
    (hm : m ∈ markers) : ∃ n < markers.length, m.id = markerId m.kind n := by
  induction h with
  | nil => exact absurd hm List.not_mem_nil
  | @snoc markers kind color _ _ ih =>
    rw [List.length_append, List.length_singleton]
    obtain hm | rfl := (List.mem_append.mp hm).imp_right List.mem_singleton.mp
    · obtain ⟨n, hn, hid⟩ := ih hm
      exact ⟨n, by omega, hid⟩
    · exact ⟨markers.length, by omega, rfl⟩

theorem Numbered.nodup_ids {markers : List Marker} (h : Numbered markers) :
    (markers.map (·.id)).Nodup := by
  induction h with
  | nil => exact .nil
  | @snoc markers kind color hmarkers _ ih =>
    rw [List.map_append, List.nodup_append]
    refine ⟨ih, by simp, ?_⟩
    rintro _ hid _ hlast rfl
    obtain ⟨m, hm, heq⟩ := List.mem_map.mp hid
    obtain ⟨n, hn, hmid⟩ := hmarkers.exists_markerId hm
    have hnumber : n = markers.length :=
      markerId_inj (hmid.symm.trans (heq.trans (List.mem_singleton.mp hlast)))
    omega

theorem Numbered.nodup_looks {markers : List Marker} (h : Numbered markers) :
    (markers.map fun m => (m.kind, m.color)).Nodup := by
  induction h with
  | nil => exact .nil
  | @snoc markers kind color _ hnew ih =>
    rw [List.map_append, List.nodup_append]
    refine ⟨ih, by simp, ?_⟩
    rintro _ hlook _ hlast rfl
    obtain ⟨m, hm, heq⟩ := List.mem_map.mp hlook
    have hsame := heq.trans (List.mem_singleton.mp hlast)
    exact hnew m hm (congrArg Prod.fst hsame) (congrArg Prod.snd hsame)

/-- A marker in use is there afterwards, with all that were there, and no other is new. -/
theorem useMarker_spec {markers : List Marker} (h : Numbered markers) (kind : MarkerKind)
    (color : String) :
    Numbered (useMarker markers kind color).2 ∧
      ⟨(useMarker markers kind color).1, kind, color⟩ ∈ (useMarker markers kind color).2 ∧
      markers ⊆ (useMarker markers kind color).2 ∧
      ∀ m ∈ (useMarker markers kind color).2,
        m ∈ markers ∨ m.id = (useMarker markers kind color).1 := by
  cases hfind : markers.find? fun m => m.kind = kind ∧ m.color = color with
  | some m =>
    have huse : useMarker markers kind color = (m.id, markers) := by rw [useMarker, hfind]
    have hlook : m.kind = kind ∧ m.color = color := by simpa using List.find?_some hfind
    obtain ⟨rfl, rfl⟩ := hlook
    rw [huse]
    exact ⟨h, List.mem_of_find?_eq_some hfind, List.Subset.refl _, fun _ hn => .inl hn⟩
  | none =>
    have huse : useMarker markers kind color = (markerId kind markers.length,
        markers ++ [⟨markerId kind markers.length, kind, color⟩]) := by
      rw [useMarker, hfind]
      rfl
    have hnew : ∀ m ∈ markers, m.kind = kind → m.color ≠ color := by simpa using hfind
    rw [huse]
    refine ⟨h.snoc hnew, List.mem_append_right _ List.mem_cons_self,
      List.subset_append_left .., ?_⟩
    intro m hm
    exact (List.mem_append.mp hm).imp_right fun hm => by rw [List.mem_singleton.mp hm]

/-! ## Edges one after the other -/

/-- The text of an edge that has a label. -/
def labelText? (metrics : TextMetrics K) (e : RoutedEdge K) : Option (Element K) :=
  e.label.map fun l =>
    .text l.rect.center l.lines metrics.fontSize metrics.lineHeight (textColor e.attrs)

/-- A path shows an edge: it goes through the points of the edge, and refers to a marker of its kind
and color if the edge wants an arrowhead. -/
def PathShown (markers : List Marker) (e : RoutedEdge K) (x : Element K) : Prop :=
  ∃ marker, x = .path e.points (Look.ofAttrs e.attrs).lineStyle marker ∧
    (marker.isSome ↔ WantsArrowhead e.attrs) ∧ ∀ id ∈ marker, arrow e.attrs id ∈ markers

theorem PathShown.mono {markers more : List Marker} (h : markers ⊆ more) {e : RoutedEdge K}
    {x : Element K} (hx : PathShown markers e x) : PathShown more e x := by
  obtain ⟨marker, hpath, hwants, hmarker⟩ := hx
  exact ⟨marker, hpath, hwants, fun id hid => h (hmarker id hid)⟩

/-- What is known of the edges drawn so far. -/
structure Drawn (metrics : TextMetrics K) (edges : List (RoutedEdge K)) (d : Edges K) : Prop where
  markers : Numbered d.markers
  paths : List.Forall₂ (PathShown d.markers) (edges.filter (Visible ·.attrs)) d.paths
  labels : d.labels = (edges.filter (Visible ·.attrs)).filterMap (labelText? metrics)
  used : ∀ m ∈ d.markers, ∃ x ∈ d.paths, x.markerEnd? = some m.id

theorem addEdge_of_invisible (metrics : TextMetrics K) (d : Edges K) {e : RoutedEdge K}
    (h : ¬ Visible e.attrs) : addEdge metrics d e = d := by
  have hinvisible : (Look.ofAttrs e.attrs : Look K).invisible = true := by
    simpa [Visible, Look.ofAttrs] using h
  rw [addEdge, if_pos hinvisible]

/-- An edge that is seen gets a path, with a reference to a marker if it wants one. -/
theorem addEdge_of_visible (metrics : TextMetrics K) {d : Edges K} (hd : Numbered d.markers)
    {e : RoutedEdge K} (h : Visible e.attrs) :
    ∃ marker markers, addEdge metrics d e =
        { markers
          paths := d.paths ++ [.path e.points (Look.ofAttrs e.attrs).lineStyle marker]
          labels := d.labels ++ (labelText? metrics e).toList } ∧
      Numbered markers ∧ d.markers ⊆ markers ∧ (marker.isSome ↔ WantsArrowhead e.attrs) ∧
      (∀ id ∈ marker, arrow e.attrs id ∈ markers) ∧
      ∀ m ∈ markers, m ∈ d.markers ∨ marker = some m.id := by
  have hvisible : ¬ (Look.ofAttrs e.attrs : Look K).invisible = true := by
    simpa [Visible, Look.ofAttrs] using h
  have hkind := markerKind?_eq e.attrs
  by_cases hwants : WantsArrowhead e.attrs
  · rw [if_pos hwants] at hkind
    obtain ⟨hnumbered, hmem, hsub, hnew⟩ :=
      useMarker_spec hd (arrowKind e.attrs) (lineColor e.attrs)
    refine ⟨some (useMarker d.markers (arrowKind e.attrs) (lineColor e.attrs)).1, _, ?_, hnumbered,
      hsub, by simp [hwants], ?_, ?_⟩
    · rw [addEdge, if_neg hvisible, hkind, labelText?]
      cases e.label <;> rfl
    · rintro id ⟨⟩
      exact hmem
    · exact fun m hm => (hnew m hm).imp_right fun hid => by rw [hid]
  · rw [if_neg hwants] at hkind
    refine ⟨none, d.markers, ?_, hd, List.Subset.refl _, by simp [hwants], by simp, ?_⟩
    · rw [addEdge, if_neg hvisible, hkind, labelText?]
      cases e.label <;> rfl
    · exact fun m hm => .inl hm

/-- One more edge is drawn. -/
theorem Drawn.add {metrics : TextMetrics K} {edges : List (RoutedEdge K)} {d : Edges K}
    (h : Drawn metrics edges d) (e : RoutedEdge K) :
    Drawn metrics (edges ++ [e]) (addEdge metrics d e) := by
  by_cases hv : Visible e.attrs
  · obtain ⟨marker, markers, hadd, hnumbered, hsub, hwants, hmarker, hnew⟩ :=
      addEdge_of_visible metrics h.markers hv
    have hfilter : (edges ++ [e]).filter (Visible ·.attrs) =
        edges.filter (Visible ·.attrs) ++ [e] := by
      simp [hv]
    rw [hadd]
    refine ⟨hnumbered, ?_, ?_, ?_⟩
    · rw [hfilter]
      exact List.rel_append (h.paths.imp fun _ _ => .mono hsub)
        (.cons ⟨marker, rfl, hwants, hmarker⟩ .nil)
    · rw [hfilter, List.filterMap_append, h.labels]
      cases hl : labelText? metrics e <;> simp [hl]
    · intro m hm
      obtain hm | hm := hnew m hm
      · obtain ⟨x, hx, hend⟩ := h.used m hm
        exact ⟨x, List.mem_append_left _ hx, hend⟩
      · exact ⟨_, List.mem_append_right _ List.mem_cons_self, hm⟩
  · have hfilter : (edges ++ [e]).filter (Visible ·.attrs) = edges.filter (Visible ·.attrs) := by
      simp [hv]
    rw [addEdge_of_invisible metrics d hv]
    exact ⟨h.markers, hfilter ▸ h.paths, hfilter ▸ h.labels, h.used⟩

theorem drawn_foldl {metrics : TextMetrics K} {edges : List (RoutedEdge K)} {d : Edges K}
    (h : Drawn metrics edges d) (more : List (RoutedEdge K)) :
    Drawn metrics (edges ++ more) (more.foldl (addEdge metrics) d) := by
  induction more generalizing edges d with
  | nil =>
    rw [List.append_nil]
    exact h
  | cons e more ih =>
    have hrest := ih (h.add e)
    rwa [List.append_assoc] at hrest

end Drawing

/-! ## Ids -/

namespace Xml.Node

mutual

/-- The ids in a document, in order. -/
def ids : Node → List String
  | element _ attrs _ children => (attrs.lookup "id").toList ++ idsAll children

def idsAll : List Node → List String
  | [] => []
  | x :: rest => ids x ++ idsAll rest

end

theorem ids_eq (x : Node) : x.ids = (x.attr? "id").toList ++ idsAll x.children := by
  cases x
  rfl

theorem ids_of_keys {x : Node} (h : "id" ∉ x.keys) : x.ids = idsAll x.children := by
  have hnone : x.attr? "id" = none :=
    Table.lookup_eq_none fun a ha heq => h (heq ▸ List.mem_map_of_mem ha)
  rw [ids_eq, hnone, Option.toList_none, List.nil_append]

end Xml.Node

open Xml (Node)

namespace Element

mutual

/-- The ids in an element, in order. -/
def ids : Element K → List String
  | group _ id children => id.toList ++ idsAll children
  | _ => []

def idsAll : List (Element K) → List String
  | [] => []
  | e :: rest => ids e ++ idsAll rest

end

omit [Scalar K] in
theorem id_not_mem_styleKeys (s : Style K) : "id" ∉ s.keys := by
  rcases s.keys_cases with h | h <;> rw [h] <;> decide

omit [Scalar K] in
theorem idsAll_of_lines {lines : List String} {xs : List Node}
    (h : List.Forall₂ LineDepicted lines xs) : Node.idsAll xs = [] := by
  induction h with
  | nil => rfl
  | @cons line x lines xs hline _ ih =>
    obtain ⟨-, hkeys, -, hchildren⟩ := hline
    have hid : "id" ∉ x.keys := by
      rw [hkeys]
      decide
    rw [Node.idsAll, ih, Node.ids_of_keys hid, hchildren]
    rfl

mutual

/-- A document that shows an element has the ids of the element. -/
theorem ids_of_depicted : (e : Element K) → {x : Node} → e.Depicted x → x.ids = e.ids
  | group className id children, x, h => by
    obtain ⟨-, -, -, hid, -, hall⟩ := h
    rw [Node.ids_eq, hid, idsAll_of_depicted children hall, ids]
  | rect r cornerRadius style, x, h => by
    obtain ⟨-, hkeys, -, -, hchildren⟩ := h
    have hid : "id" ∉ x.keys := by
      rw [hkeys, keys]
      split <;> simp [id_not_mem_styleKeys]
    rw [Node.ids_of_keys hid, hchildren]
    rfl
  | ellipse c rx ry style, x, h => by
    obtain ⟨-, hkeys, -, -, hchildren⟩ := h
    have hid : "id" ∉ x.keys := by simp [hkeys, keys, id_not_mem_styleKeys]
    rw [Node.ids_of_keys hid, hchildren]
    rfl
  | polygon points style, x, h => by
    obtain ⟨-, hkeys, -, -, hchildren⟩ := h
    have hid : "id" ∉ x.keys := by simp [hkeys, keys, id_not_mem_styleKeys]
    rw [Node.ids_of_keys hid, hchildren]
    rfl
  | path points style markerEnd, x, h => by
    obtain ⟨-, hkeys, -, -, -, hchildren⟩ := h
    have hid : "id" ∉ x.keys := by
      cases markerEnd <;> simp [hkeys, keys, id_not_mem_styleKeys]
    rw [Node.ids_of_keys hid, hchildren]
    rfl
  | text c lines fontSize lineHeight color, x, h => by
    obtain ⟨-, hkeys, -, -, hlines⟩ := h
    have hid : "id" ∉ x.keys := by simp [hkeys, keys]
    rw [Node.ids_of_keys hid, idsAll_of_lines hlines]
    rfl

theorem idsAll_of_depicted : (es : List (Element K)) → {xs : List Node} →
    AllDepicted es xs → Node.idsAll xs = idsAll es
  | [], _, h => by
    rw [h]
    rfl
  | e :: rest, _, h => by
    obtain ⟨x, more, rfl, hx, hall⟩ := h
    rw [Node.idsAll, idsAll, ids_of_depicted e hx, idsAll_of_depicted rest hall]

end

end Element

theorem Marker.ids_of_depicted {m : Marker} {x : Node} (h : m.Depicted x) : x.ids = [m.id] := by
  obtain ⟨-, -, hid, -, tip, hchildren, -, ⟨-, htip⟩, hkind⟩ := h
  have hnone : "id" ∉ tip.keys := by
    cases hm : m.kind <;> rw [hm] at hkind <;> rw [hkind.1] <;> decide
  rw [Node.ids_eq, hid, hchildren, Node.idsAll, Node.ids_of_keys hnone, htip]
  rfl

theorem Marker.idsAll_of_depicted {ms : List Marker} {xs : List Node}
    (h : List.Forall₂ Marker.Depicted ms xs) : Node.idsAll xs = ms.map (·.id) := by
  induction h with
  | nil => rfl
  | cons hm _ ih => rw [Node.idsAll, ih, Marker.ids_of_depicted hm, List.map_cons]; rfl

/-- A document that shows a scene has the id of the drawing, those of the markers and those in the
root, and no others. -/
theorem Scene.ids_of_depicted {s : Scene K} {x : Node} (h : s.Depicted x) :
    x.ids = s.anchor :: (s.markers.map (·.id) ++ s.root.ids) := by
  obtain ⟨-, -, hid, -, defs, root, hchildren, -, hkeys, -, hmarkers, hroot, -⟩ := h
  have hdefs : "id" ∉ defs.keys := by simp [hkeys]
  rw [Node.ids_eq, hid, hchildren, Node.idsAll, Node.idsAll, Node.idsAll, Node.ids_of_keys hdefs,
    Marker.idsAll_of_depicted hmarkers, Element.ids_of_depicted s.root hroot, List.append_nil]
  rfl

/-! ## Whole drawings -/

namespace Drawing

/-- The lines around a node are those of its shape: its rectangle, the ellipse or the circle inside,
the diamond between the middles of the sides, or none for plain text. -/
def OutlineShown (n : PlacedNode K) (xs : List (Element K)) : Prop :=
  let style := (Look.ofAttrs n.attrs : Look K).outlineStyle
  match n.shape with
  | .box => xs = [.rect n.rect (if Look.hasStyle n.attrs "rounded" then cornerRadius else 0) style]
  | .ellipse => xs = [.ellipse n.rect.center (n.rect.width / 2) (n.rect.height / 2) style]
  | .circle =>
    ∃ radius, radius = min n.rect.width n.rect.height / 2 ∧
      xs = [.ellipse n.rect.center radius radius style]
  | .diamond =>
    ∃ top right bottom left : Point K,
      top = ⟨n.rect.center.x, n.rect.y⟩ ∧ right = ⟨n.rect.right, n.rect.center.y⟩ ∧
      bottom = ⟨n.rect.center.x, n.rect.bottom⟩ ∧ left = ⟨n.rect.x, n.rect.center.y⟩ ∧
      xs = [.polygon [top, right, bottom, left] style]
  | .plain => xs = []

/-- A group shows a node: it has the id of the node and holds its outline and its text. -/
def NodeShown (metrics : TextMetrics K) (n : PlacedNode K) (x : Element K) : Prop :=
  ∃ outline, OutlineShown n outline ∧ x = .group "node" (some ("node-" ++ n.id)) (outline ++
    [.text n.rect.center n.lines metrics.fontSize metrics.lineHeight (textColor n.attrs)])

/-- What is drawn shows all of a layout that is to be seen, and every reference is met. -/
structure Intact (metrics : TextMetrics K) (l : Layout K) (markers : List Marker)
    (paths labels nodes : List (Element K)) : Prop where
  edgesShown : List.Forall₂ (PathShown markers) (l.edges.filter (Visible ·.attrs)) paths
  labelsShown : labels = (l.edges.filter (Visible ·.attrs)).filterMap (labelText? metrics)
  nodesShown : List.Forall₂ (NodeShown metrics) (l.nodes.filter (Visible ·.attrs)) nodes
  /-- A reference is to one marker only. -/
  met : ∀ x ∈ paths, ∀ id ∈ x.markerEnd?, ∃! m, m ∈ markers ∧ m.id = id
  looks : (markers.map fun m => (m.kind, m.color)).Nodup
  ids : (markers.map (·.id)).Nodup
  used : ∀ m ∈ markers, ∃ x ∈ paths, x.markerEnd? = some m.id

theorem outlineShown (n : PlacedNode K) : OutlineShown n (outline n (Look.ofAttrs n.attrs)) := by
  unfold OutlineShown outline
  cases n.shape with
  | box | ellipse | plain => rfl
  | circle => exact ⟨_, rfl, rfl⟩
  | diamond => exact ⟨_, _, _, _, rfl, rfl, rfl, rfl, rfl⟩

theorem node?_of_visible (metrics : TextMetrics K) {n : PlacedNode K} (h : Visible n.attrs) :
    ∃ x, node? metrics n = some x ∧ NodeShown metrics n x ∧ x.ids = ["node-" ++ n.id] := by
  have hvisible : ¬ (Look.ofAttrs n.attrs : Look K).invisible = true := by
    simpa [Visible, Look.ofAttrs] using h
  refine ⟨.group "node" (some ("node-" ++ n.id)) (outline n (Look.ofAttrs n.attrs) ++
    [label n.rect.center n.lines metrics (textColor n.attrs)]), ?_, ⟨_, outlineShown n, rfl⟩, ?_⟩
  · rw [node?, if_neg hvisible]
    rfl
  · rw [Element.ids, outline]
    cases n.shape <;> rfl

theorem node?_of_invisible (metrics : TextMetrics K) {n : PlacedNode K} (h : ¬ Visible n.attrs) :
    node? metrics n = none := by
  have hinvisible : (Look.ofAttrs n.attrs : Look K).invisible = true := by
    simpa [Visible, Look.ofAttrs] using h
  rw [node?, if_pos hinvisible]

theorem nodes_shown (metrics : TextMetrics K) (nodes : List (PlacedNode K)) :
    List.Forall₂ (NodeShown metrics) (nodes.filter (Visible ·.attrs))
        (nodes.filterMap (node? metrics)) ∧
      Element.idsAll (nodes.filterMap (node? metrics)) =
        (nodes.filter (Visible ·.attrs)).map ("node-" ++ ·.id) := by
  induction nodes with
  | nil => exact ⟨.nil, rfl⟩
  | cons n nodes ih =>
    by_cases hv : Visible n.attrs
    · obtain ⟨x, hnode, hshown, hid⟩ := node?_of_visible metrics hv
      rw [List.filterMap_cons_some hnode, List.filter_cons_of_pos (by simpa using hv)]
      refine ⟨.cons hshown ih.1, ?_⟩
      rw [Element.idsAll, hid, ih.2]
      rfl
    · rw [List.filterMap_cons_none (node?_of_invisible metrics hv),
        List.filter_cons_of_neg (by simpa using hv)]
      exact ih

omit [Scalar K] in
theorem idsAll_eq_nil {es : List (Element K)} (h : ∀ e ∈ es, e.ids = []) :
    Element.idsAll es = [] := by
  induction es with
  | nil => rfl
  | cons e es ih =>
    rw [Element.idsAll, h e List.mem_cons_self, ih fun e he => h e (List.mem_cons_of_mem _ he)]
    rfl

theorem idsAll_paths {markers : List Marker} {edges : List (RoutedEdge K)}
    {paths : List (Element K)} (h : List.Forall₂ (PathShown markers) edges paths) :
    Element.idsAll paths = [] := by
  induction h with
  | nil => rfl
  | cons hx _ ih =>
    obtain ⟨marker, rfl, -⟩ := hx
    rw [Element.idsAll, ih]
    rfl

theorem exists_of_markerEnd? {markers : List Marker} {edges : List (RoutedEdge K)}
    {paths : List (Element K)} (h : List.Forall₂ (PathShown markers) edges paths) {x : Element K}
    (hx : x ∈ paths) {id : String} (hid : x.markerEnd? = some id) :
    ∃ m ∈ markers, m.id = id := by
  induction h with
  | nil => exact absurd hx List.not_mem_nil
  | cons hpath _ ih =>
    obtain rfl | hx := List.mem_cons.mp hx
    · obtain ⟨marker, rfl, -, hmarker⟩ := hpath
      exact ⟨_, hmarker id hid, rfl⟩
    · exact ih hx

theorem idsAll_labels (metrics : TextMetrics K) (edges : List (RoutedEdge K)) :
    Element.idsAll (edges.filterMap (labelText? metrics)) = [] := by
  apply idsAll_eq_nil
  intro x hx
  obtain ⟨e, -, htext⟩ := List.mem_filterMap.mp hx
  obtain ⟨l, -, rfl⟩ := Option.map_eq_some_iff.mp htext
  rfl

/-- The ids of a drawing differ if those of the nodes do: each kind of id has its own beginning. -/
theorem nodup_ids {markers : List Marker} (h : Numbered markers) {nodes : List String}
    (hnodes : nodes.Nodup) :
    (Scene.standardAnchor :: (markers.map (·.id) ++ nodes.map ("node-" ++ ·))).Nodup := by
  have hmarker : ∀ id ∈ markers.map (·.id), id.toList.head? = some 'a' := by
    intro id hid
    obtain ⟨m, hm, rfl⟩ := List.mem_map.mp hid
    obtain ⟨n, -, hmid⟩ := h.exists_markerId hm
    rw [hmid, markerId]
    simp
  have hnode : ∀ id ∈ nodes.map ("node-" ++ ·), id.toList.head? = some 'n' := by
    intro id hid
    obtain ⟨n, -, rfl⟩ := List.mem_map.mp hid
    simp
  have hanchor : Scene.standardAnchor.toList.head? = some 'g' := by decide
  rw [List.nodup_cons, List.nodup_append]
  refine ⟨fun hmem => ?_, h.nodup_ids, ?_, ?_⟩
  · obtain hid | hid := List.mem_append.mp hmem
    · exact absurd (hanchor.symm.trans (hmarker _ hid)) (by decide)
    · exact absurd (hanchor.symm.trans (hnode _ hid)) (by decide)
  · exact hnodes.map fun a b hab => (String.append_right_inj "node-").mp hab
  · rintro a ha b hb rfl
    exact absurd ((hmarker a ha).symm.trans (hnode a hb)) (by decide)

end Drawing

open Drawing

/-- **Drawings hold together.** All edges and nodes of a layout that are to be seen are drawn, in
order: edges with their points, nodes with the outlines of their shapes. A path refers to a marker
if and only if its edge wants an arrowhead, and then to the only marker with this id, which has the
kind and color of the edge; markers differ in their ids and in their looks, and each is referred to.
The ids that are read from what is written of the drawing are those of the drawing itself, of the
markers and of the nodes; if the ids of the nodes differ, so do all of these. -/
theorem Layout.draw_intact (l : Layout K) (metrics : TextMetrics K) :
    ∃ paths labels nodes,
      (l.draw metrics).root = .group "output" none [.group "edgePaths" none paths,
        .group "edgeLabels" none labels, .group "nodes" none nodes] ∧
      Intact metrics l (l.draw metrics).markers paths labels nodes ∧
      ∃ x, Xml.read (l.draw metrics).toSvg = some x ∧
        x.ids = "graph-container" :: ((l.draw metrics).markers.map (·.id) ++
          (l.nodes.filter (Visible ·.attrs)).map ("node-" ++ ·.id)) ∧
        ((l.nodes.map (·.id)).Nodup → x.ids.Nodup) := by
  have hnone : Drawn metrics [] ({} : Edges K) := ⟨.nil, .nil, rfl, by simp⟩
  have hdrawn : Drawn metrics l.edges (l.edges.foldl (addEdge metrics) {}) :=
    drawn_foldl hnone l.edges
  obtain ⟨hnodes, hids⟩ := nodes_shown metrics l.nodes
  obtain ⟨x, hread, -, hshown⟩ := (l.draw metrics).read_toSvg
  have hroot : (l.draw metrics).root.ids =
      Element.idsAll (l.nodes.filterMap (Drawing.node? metrics)) := by
    simp [Layout.draw, Element.ids, Element.idsAll, idsAll_paths hdrawn.paths, hdrawn.labels,
      idsAll_labels]
  have hx : x.ids = "graph-container" :: ((l.draw metrics).markers.map (·.id) ++
      (l.nodes.filter (Visible ·.attrs)).map ("node-" ++ ·.id)) := by
    rw [Scene.ids_of_depicted hshown, hroot, hids]
    rfl
  refine ⟨_, _, _, rfl, ⟨hdrawn.paths, hdrawn.labels, hnodes, ?_, hdrawn.markers.nodup_looks,
    hdrawn.markers.nodup_ids, hdrawn.used⟩, x, hread, hx, fun hdistinct => ?_⟩
  · intro p hp id hid
    obtain ⟨m, hm, hmid⟩ := exists_of_markerEnd? hdrawn.paths hp hid
    refine ⟨m, ⟨hm, hmid⟩, ?_⟩
    rintro n ⟨hn, hnid⟩
    exact List.inj_on_of_nodup_map hdrawn.markers.nodup_ids hn hm (hnid.trans hmid.symm)
  · have hvisible : ((l.nodes.filter (Visible ·.attrs)).map (·.id)).Nodup :=
      hdistinct.sublist (List.filter_sublist.map _)
    have hnodup := nodup_ids hdrawn.markers hvisible
    rw [List.map_map] at hnodup
    exact hx ▸ hnodup

/-- Two nodes, and edges of two colors: one is not to be seen, and one has no arrowhead. -/
def twoColors : Layout ℚ :=
  let node id : PlacedNode ℚ := ⟨id, ⟨0, 0, 40, 20⟩, 0, 0, [id], .box, ∅⟩
  let edge attrs : RoutedEdge ℚ := ⟨"a", "b", [], ⟨⟨0, 0⟩, 0⟩, none, false, .ofList attrs⟩
  { nodes := [node "a", node "b"]
    edges := [edge [], edge [("style", "bold, invis"), ("color", "blue")], edge [("dir", "none")],
      edge [("arrowhead", "vee"), ("color", "red")], edge [("color", "#333")]]
    box := ⟨0, 0, 40, 20⟩
    direction := .topBottom
    crossings := 0
    directed := true }

theorem draw_twoColors : (twoColors.nodes.map (·.id)).Nodup ∧
    ∃ x, Xml.read (twoColors.draw .standard).toSvg = some x ∧
      x.ids = ["graph-container", "arrowhead-normal-0", "arrowhead-vee-1", "node-a", "node-b"] ∧
      x.ids.Nodup := by
  have hdistinct : (twoColors.nodes.map (·.id)).Nodup := by decide
  have hmarkers : (twoColors.draw .standard).markers.map (·.id) =
      ["arrowhead-normal-0", "arrowhead-vee-1"] := by decide +kernel
  obtain ⟨-, -, -, -, -, x, hread, hids, hnodup⟩ := twoColors.draw_intact .standard
  refine ⟨hdistinct, x, hread, ?_, hnodup hdistinct⟩
  rw [hids, hmarkers]
  decide +kernel

end Tiered
