import Mathlib.Data.Nat.Cast.Defs
import Tiered.Proofs.Dot.RoundTrip
import Tiered.Proofs.Guarded.Layout
import Tiered.Widget

/-!
# Only syntax errors fail

* `Graph.flaw?`: what keeps a graph from being laid out, said without laying it out; a layout fails
  for its flaw and for nothing else (`layout_eq_error_iff`, `exists_layout_iff`);
* `Graph.layout?_eq`: nor does an access that is out of range;
* `TextMetrics.nodeSize_nonneg`: labels make nodes with sizes, whatever their lines and shapes are;
* `ofDot_eq_error_iff`: so a text is drawn if it is read, and fails with the error it is read with;
* `update_placeholder_iff`: and a widget shows its placeholder for want of such a text only.
-/

namespace Tiered

/-! ## What fails a layout -/

/-- The first failure fails all. -/
theorem Layout.mapM_eq_error {α β ε : Type} {f : α → Except ε β} {front rest : List α} {x : α}
    {e : ε} (hfront : ∀ y ∈ front, ∃ z, f y = .ok z) (hx : f x = .error e) :
    (front ++ x :: rest).mapM f = .error e := by
  induction front with
  | nil =>
    rw [List.nil_append, List.mapM_cons, hx]
    rfl
  | cons y front ih =>
    obtain ⟨z, hz⟩ := hfront y List.mem_cons_self
    rw [List.cons_append, List.mapM_cons, hz, ih fun y hy => hfront y (List.mem_cons_of_mem _ hy)]
    rfl

namespace Graph

section Layouts

variable {K : Type} [Scalar K] {g : Graph} {settings : Settings K} {sizer : Sizer K}

/-- The size of a node is two lengths. -/
def sized (g : Graph) (sizer : Sizer K) (id : String) : Bool :=
  Scalar.isLength (sizer id (g.labelLines id)).1 && Scalar.isLength (sizer id (g.labelLines id)).2

/-- The first end of an edge that is no node, or else the first node without a size. -/
def flaw? (g : Graph) (sizer : Sizer K) : Option LayoutError :=
  match g.unknownNode? with
  | some e => some (.unknownNode e.id)
  | none => (g.nodes.find? (!g.sized sizer ·)).map .invalidSize

theorem flaw?_eq_none : g.flaw? sizer = none ↔
    (∀ e ∈ g.edges, e.source ∈ g.nodes ∧ e.target ∈ g.nodes) ∧
      ∀ id ∈ g.nodes, g.sized sizer id = true := by
  rw [← unknownNode?_eq_none, flaw?]
  cases g.unknownNode? with
  | some e => simp
  | none => simp [List.find?_eq_none]

theorem layout_of_flaw {e : LayoutError} (h : g.flaw? sizer = some e) :
    g.layout settings sizer = .error e := by
  unfold flaw? at h
  unfold layout
  cases hunknown : g.unknownNode? with
  | some u =>
    rw [hunknown] at h
    cases h
    rfl
  | none =>
    rw [hunknown] at h
    obtain ⟨id, hfind, rfl⟩ := Option.map_eq_some_iff.mp h
    obtain ⟨hid, front, rest, hnodes, hfront⟩ := List.find?_eq_some_iff_append.mp hfind
    have hsizes : g.nodes.mapM (Layout.sizeOf g sizer) = .error (.invalidSize id) := by
      rw [hnodes]
      refine Layout.mapM_eq_error (fun v hv => ⟨_, Layout.sizeOf_ok ?_⟩) ?_
      · simpa [sized] using hfront v hv
      · simp only [sized, Bool.not_eq_true'] at hid
        simp [Layout.sizeOf, hid]
    dsimp only
    rw [if_neg (by simp [hnodes]), hsizes]
    rfl

theorem layout_of_flawless (settings : Settings K) (h : g.flaw? sizer = none) :
    ∃ l, g.layout settings sizer = .ok l := by
  obtain ⟨hknown, hsized⟩ := flaw?_eq_none.mp h
  refine exists_layout settings sizer (unknownNode?_eq_none.mpr hknown) fun id hid => ?_
  simpa [sized] using hsized id hid

/-- A layout fails for the flaw of its graph. -/
theorem layout_eq_error_iff {e : LayoutError} :
    g.layout settings sizer = .error e ↔ g.flaw? sizer = some e := by
  refine ⟨fun h => ?_, layout_of_flaw⟩
  cases hflaw : g.flaw? sizer with
  | some e' =>
    rw [layout_of_flaw hflaw] at h
    exact congrArg some (Except.error.inj h)
  | none =>
    obtain ⟨l, hl⟩ := layout_of_flawless settings hflaw
    rw [hl] at h
    cases h

theorem exists_layout_iff :
    (∃ l, g.layout settings sizer = .ok l) ↔ g.flaw? sizer = none := by
  refine ⟨fun ⟨l, hl⟩ => ?_, layout_of_flawless settings⟩
  cases hflaw : g.flaw? sizer with
  | none => rfl
  | some e =>
    rw [layout_of_flaw hflaw] at hl
    cases hl

/-- Behind the check of the edges, both ends of each of them are found among the nodes. -/
theorem exists_arcOf (h : g.unknownNode? = none) {e : Edge} (he : e ∈ g.edges) :
    ∃ u v, Layout.arcOf g e = .ok (u, v) ∧ g.nodes[u]? = some e.source ∧
      g.nodes[v]? = some e.target := by
  obtain ⟨⟨u, v⟩, harc⟩ := Layout.exists_arcOf_eq_ok (unknownNode?_eq_none.mp h e he)
  obtain ⟨hsource, htarget, -⟩ := Layout.arcOf_eq_ok harc
  exact ⟨u, v, harc, hsource, htarget⟩

end Layouts
end Graph

/-! ## The sizes of labels -/

section Sizes

variable {K : Type} [Field K] [LinearOrder K] [FloorRing K] [PlaneFunctions K]

/-- Metrics that measure with lengths. -/
structure TextMetrics.Lengths (m : TextMetrics K) : Prop where
  charWidth : 0 ≤ m.charWidth
  lineHeight : 0 ≤ m.lineHeight
  paddingX : 0 ≤ m.paddingX
  paddingY : 0 ≤ m.paddingY

theorem text_resolve (overrides : Overrides K) (g : Graph) :
    (overrides.resolve g).text = .standard := rfl

variable [IsStrictOrderedRing K]

namespace TextMetrics

theorem lengths_standard : (standard : TextMetrics K).Lengths :=
  ⟨Nat.cast_nonneg 8, Nat.cast_nonneg 18, Nat.cast_nonneg 10, Nat.cast_nonneg 10⟩

variable {m : TextMetrics K}

theorem textSize_nonneg (hm : m.Lengths) (lines : List String) :
    0 ≤ (m.textSize lines).1 ∧ 0 ≤ (m.textSize lines).2 :=
  ⟨mul_nonneg (Nat.cast_nonneg _) hm.charWidth, mul_nonneg (Nat.cast_nonneg _) hm.lineHeight⟩

/-- Around any lines a node of any shape has a size. -/
theorem nodeSize_nonneg (hroot : 0 ≤ (PlaneFunctions.sqrt 2 : K)) (hm : m.Lengths)
    (lines : List String) (shape : Shape) :
    0 ≤ (m.nodeSize lines shape).1 ∧ 0 ≤ (m.nodeSize lines shape).2 := by
  obtain ⟨htextWidth, htextHeight⟩ := textSize_nonneg hm lines
  have hwidth := add_nonneg htextWidth (mul_nonneg (Nat.cast_nonneg 2) hm.paddingX)
  have hheight := add_nonneg htextHeight (mul_nonneg (Nat.cast_nonneg 2) hm.paddingY)
  cases shape with
  | box | ellipse | plain => exact ⟨hwidth, hheight⟩
  | circle => exact ⟨le_max_of_le_left hwidth, le_max_of_le_left hwidth⟩
  | diamond =>
    rw [← Nat.cast_ofNat] at hroot
    exact ⟨mul_nonneg hwidth hroot, mul_nonneg hheight hroot⟩

end TextMetrics

/-- Sized by their labels, all nodes have sizes. -/
theorem Graph.sized_sizer (hroot : 0 ≤ (PlaneFunctions.sqrt 2 : K)) (g : Graph)
    {m : TextMetrics K} (hm : m.Lengths) (id : String) : g.sized (g.sizer m) id = true := by
  obtain ⟨hwidth, hheight⟩ := m.nodeSize_nonneg hroot hm (g.labelLines id) (g.shape id)
  rw [sized, Bool.and_eq_true]
  exact ⟨Scalar.isLength_iff.mpr hwidth, Scalar.isLength_iff.mpr hheight⟩

/-! ## Texts that are drawn -/

/-- A graph whose edges join its nodes is drawn with any metrics that are lengths. -/
theorem Graph.exists_diagram (hroot : 0 ≤ (PlaneFunctions.sqrt 2 : K)) {g : Graph}
    (hknown : g.unknownNode? = none) {settings : Settings K} (hm : settings.text.Lengths) :
    ∃ d, g.diagram settings = .ok d := by
  obtain ⟨l, hl⟩ := layout_of_flawless settings (flaw?_eq_none.mpr
    ⟨unknownNode?_eq_none.mp hknown, fun id _ => g.sized_sizer hroot hm id⟩)
  unfold diagram
  rw [hl]
  exact ⟨_, rfl⟩

namespace Diagram

theorem exists_ofDot (hroot : 0 ≤ (PlaneFunctions.sqrt 2 : K)) {source : String} {g : Graph}
    (h : Graph.ofDot source = .ok g) (overrides : Overrides K) :
    ∃ d, ofDot source overrides = .ok d := by
  have hknown := Graph.unknownNode?_eq_none.mpr (Graph.canonical_of_ofDot h).ends
  have hm : (overrides.resolve g).text.Lengths := by
    rw [text_resolve]
    exact TextMetrics.lengths_standard
  unfold ofDot
  rw [h]
  exact g.exists_diagram hroot hknown hm

/-- A text is not drawn if it is not read, and for this reason only. -/
theorem ofDot_eq_error_iff (hroot : 0 ≤ (PlaneFunctions.sqrt 2 : K)) {source : String}
    {overrides : Overrides K} {e : RenderError} :
    ofDot source overrides = .error e ↔ ∃ s, Graph.ofDot source = .error s ∧ e = .notDot s := by
  cases h : Graph.ofDot source with
  | error s =>
    unfold ofDot
    rw [h]
    simp [eq_comm]
  | ok g =>
    obtain ⟨d, hd⟩ := exists_ofDot hroot h overrides
    rw [hd]
    simp

end Diagram
end Sizes

/-! ## Rows that are drawn -/

/-- The text that a display takes from some rows: it is in the column of the first row, and is not
blank. -/
def Display.Takes (d : Display) (rows : List Row) (dot : String) : Prop :=
  ∃ column row, d.column = some column ∧ Text.blank column = false ∧ rows.head? = some row ∧
    Json.Fields.get? row column = some (.text dot) ∧ Text.blank dot = false

theorem Display.exists_request_iff {d : Display} {rows : List Row} {dot : String} :
    (∃ r, d.request rows = .ok r ∧ r.dot = dot) ↔ d.Takes rows dot := by
  obtain ⟨column⟩ := d
  constructor
  · rintro ⟨r, hr, rfl⟩
    unfold request at hr
    split at hr
    · cases hr
    · rename_i column hcolumn
      obtain ⟨hname, hblank⟩ := Option.filter_eq_some_iff.mp hcolumn
      split at hr
      · cases hr
      · rename_i row rest
        split at hr
        · cases hr
        · rename_i dot hcell
          split at hr
          · cases hr
          · rename_i htext
            cases hr
            exact ⟨column, row, hname, by simpa using hblank, rfl, hcell, by simpa using htext⟩
        · cases hr
  · rintro ⟨column, row, hname, hblank, hrow, hcell, htext⟩
    obtain ⟨rest, rfl⟩ := List.head?_eq_some_iff.mp hrow
    cases hname
    refine ⟨⟨dot, column⟩, ?_, rfl⟩
    simp [request, Option.filter, hblank, hcell, htext]

namespace Widget

variable {K : Type} [Field K] [LinearOrder K] [FloorRing K] [PlaneFunctions K]
  [IsStrictOrderedRing K]

/-- Some rows are rendered if a text is taken from them that is read. -/
theorem exists_render_iff (hroot : 0 ≤ (PlaneFunctions.sqrt 2 : K)) {w : Widget K}
    {rows : List Row} :
    (∃ scene, w.render rows = .ok scene) ↔
      ∃ dot g, w.display.Takes rows dot ∧ Graph.ofDot dot = .ok g := by
  constructor
  · rintro ⟨scene, hscene⟩
    unfold render at hscene
    split at hscene
    · cases hscene
    · rename_i request hrequest
      cases hread : Graph.ofDot request.dot with
      | ok g => exact ⟨_, g, Display.exists_request_iff.mp ⟨request, hrequest, rfl⟩, hread⟩
      | error s =>
        rw [Diagram.ofDot_eq_error_iff hroot |>.mpr ⟨s, hread, rfl⟩] at hscene
        cases hscene
  · rintro ⟨dot, g, htakes, hread⟩
    obtain ⟨request, hrequest, rfl⟩ := Display.exists_request_iff.mpr htakes
    obtain ⟨d, hd⟩ := Diagram.exists_ofDot hroot hread w.overrides
    unfold render
    simp only [hrequest, hd]
    exact ⟨_, rfl⟩

theorem update_placeholder_iff (hroot : 0 ≤ (PlaneFunctions.sqrt 2 : K)) {w : Widget K}
    {rows : List Row} :
    (w.update rows).output = .placeholder ↔
      ¬ ∃ dot g, w.display.Takes rows dot ∧ Graph.ofDot dot = .ok g := by
  rw [← exists_render_iff hroot, update]
  cases w.render rows with
  | ok scene => simp [showScene]
  | error e => simp [unmount]

end Widget

/-- **Only syntax errors fail.** In exact arithmetic a text fails to be drawn if it fails to be
read, with the very error that it is read with. Graphs are laid out, whole, if their edges join
their nodes and the sizes of these are lengths, in any arithmetic; what fails is found by the checks
in front and by nothing behind them, where no access is out of range and no counter falls below
zero. So a widget shows its placeholder for want of a text that is read, and for nothing else. -/
theorem Diagram.fails_only_unread {K : Type} [Field K] [LinearOrder K] [FloorRing K]
    [PlaneFunctions K] [IsStrictOrderedRing K] (hroot : 0 ≤ (PlaneFunctions.sqrt 2 : K)) :
    (∀ (source : String) (overrides : Overrides K) (e : RenderError),
      Diagram.ofDot source overrides = .error e ↔
        ∃ s, Graph.ofDot source = .error s ∧ e = .notDot s) ∧
    (∀ (L : Type) [Scalar L] (g : Graph) (settings : Settings L) (sizer : Sizer L),
      ((∃ l, g.layout settings sizer = .ok l) ↔
        (∀ e ∈ g.edges, e.source ∈ g.nodes ∧ e.target ∈ g.nodes) ∧
          ∀ id ∈ g.nodes, g.sized sizer id = true) ∧
      (∀ l, g.layout settings sizer = .ok l →
        l.nodes.map (·.id) = g.nodes ∧ l.edges.map (·.edge) = g.edges) ∧
      (∀ e, g.layout settings sizer = .error e ↔ g.flaw? sizer = some e) ∧
      (g.unknownNode? = none → ∀ e ∈ g.edges, ∃ u v, Layout.arcOf g e = .ok (u, v) ∧
        g.nodes[u]? = some e.source ∧ g.nodes[v]? = some e.target) ∧
      ∀ add, Layout.ExactBelow add g →
        (g.layout? add settings sizer).run = some (g.layout settings sizer)) ∧
    ∀ (w : Widget K) (rows : List Row), (w.update rows).output = .placeholder ↔
      ¬ ∃ dot g, w.display.Takes rows dot ∧ Graph.ofDot dot = .ok g := by
  refine ⟨fun source overrides e => Diagram.ofDot_eq_error_iff hroot, ?_,
    fun w rows => Widget.update_placeholder_iff hroot⟩
  intro L _ g settings sizer
  exact ⟨Graph.exists_layout_iff.trans Graph.flaw?_eq_none, fun l hl => Graph.layout_complete hl,
    fun e => Graph.layout_eq_error_iff, fun hknown e he => Graph.exists_arcOf hknown he,
    fun add hadd => Graph.layout?_eq hadd settings sizer⟩

/-- An edge without a target. -/
def untargetedText : String := "digraph \x7b a -> ; \x7d"

theorem Diagram.fails_only_unread_untargeted :
    0 ≤ (PlaneFunctions.sqrt 2 : ℚ) ∧
      (∃ s, Graph.ofDot untargetedText = .error s ∧
        Diagram.ofDot untargetedText ({} : Overrides ℚ) = .error (.notDot s)) ∧
      (∃ l : Layout ℚ, Graph.nested.layout .standard (fun _ _ => (40, 0)) = .ok l ∧
        (Graph.nested.layout? Layering.saturatingAdd .standard fun _ _ => (40, 0)).run =
          some (.ok l)) ∧
      Graph.nested.layout (.standard : Settings ℚ) (fun id _ => (if id = "b" then -1 else 40, 0)) =
        .error (.invalidSize "b") ∧
      let w : Widget ℚ := { display := { column := some "dot" }, host := .new "view" ⟨800, 600⟩ }
      (w.update [[("dot", .text untargetedText)]]).output = .placeholder ∧
        (w.update [[("dot", .text Graph.nestedText)], []]).output ≠ .placeholder := by
  have hroot : 0 ≤ (PlaneFunctions.sqrt 2 : ℚ) := by decide +kernel
  obtain ⟨hdraw, hlayout, hwidget⟩ := Diagram.fails_only_unread hroot
  have hread : (Graph.ofDot Graph.nestedText).toOption = some Graph.nested := by decide +kernel
  have hunread : (Graph.ofDot untargetedText).toOption = none := by decide +kernel
  refine ⟨hroot, ?_, ?_, ?_, ?_, ?_⟩
  · cases h : Graph.ofDot untargetedText with
    | error s => exact ⟨s, rfl, (hdraw _ _ _).mpr ⟨s, h, rfl⟩⟩
    | ok g =>
      rw [h] at hunread
      cases hunread
  · obtain ⟨hsome, -, -, -, hguarded⟩ := hlayout ℚ Graph.nested .standard fun _ _ => (40, 0)
    obtain ⟨l, hl⟩ := hsome.mpr (by decide +kernel)
    have hadd : Layout.ExactBelow Layering.saturatingAdd Graph.nested :=
      Layout.exactBelow_saturatingAdd (by decide)
    exact ⟨l, hl, hl ▸ hguarded _ hadd⟩
  · exact ((hlayout ℚ Graph.nested .standard _).2.2.1 _).mpr (by decide +kernel)
  · refine (hwidget _ _).mpr ?_
    rintro ⟨dot, g, ⟨column, row, hcolumn, -, hrow, hcell, -⟩, hg⟩
    cases hcolumn
    cases hrow
    cases hcell
    rw [hg] at hunread
    cases hunread
  · refine fun hnone => (hwidget _ _).mp hnone ?_
    cases h : Graph.ofDot Graph.nestedText with
    | error s =>
      rw [h] at hread
      cases hread
    | ok g =>
      exact ⟨_, g, ⟨"dot", _, rfl, by decide, rfl, rfl, by decide +kernel⟩, h⟩

end Tiered
