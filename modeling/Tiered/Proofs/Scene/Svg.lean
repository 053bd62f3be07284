import Mathlib.Data.List.Forall2
import Tiered.Proofs.Markup.Reading
import Tiered.Proofs.Table
import Tiered.Scene.Svg

/-!
# Scenes are read back from SVG

* `Scene.Depicted`: a document shows a scene if it has one tag for each of its elements, nested and
  ordered as they are, and each tag has the attributes of its kind, with the strings of the scene;
* `sound_markup`: what is written of a scene has names for all tags and attributes;
* `lines_markup`: it stands for a document that shows the scene;
* `read_toSvg`: this document is what is read.
-/

namespace Tiered

open Xml (Node isBlank)
open Markup (indent linesAll)

namespace Xml.Node

def keys (x : Node) : List String := x.attrs.map Prod.fst

/-- Nothing stands between the elements but the blanks that set them out. -/
def Plain (x : Node) : Prop := x.text.toList.all isBlank = true

/-- Nothing stands in the element. -/
def Empty (x : Node) : Prop := x.text = "" ∧ x.children = []

mutual

/-- The number of tags, those for lines of text apart. -/
def tags : Node → Nat
  | element name _ _ children => (if name = "tspan" then 0 else 1) + tagsAll children

def tagsAll : List Node → Nat
  | [] => 0
  | x :: rest => tags x + tagsAll rest

end

end Xml.Node

variable {K : Type} [Scalar K]

/-! ## What a document shows -/

def Style.keys (s : Style K) : List String :=
  ["fill", "stroke", "stroke-width"] ++ s.dash.toList.map fun _ => "stroke-dasharray"

/-- A tag has the colours and dashes of a style. -/
def Style.Depicted (s : Style K) (x : Node) : Prop :=
  x.attr? "fill" = some s.fill ∧ x.attr? "stroke" = some s.stroke ∧
    x.attr? "stroke-dasharray" = s.dash

/-- A line of text has a tag of its own. -/
def LineDepicted (line : String) (x : Node) : Prop :=
  x.name = "tspan" ∧ x.keys = ["x", "y"] ∧ x.text = line ∧ x.children = []

namespace Element

def tagName : Element K → String
  | group .. => "g"
  | rect .. => "rect"
  | ellipse .. => "ellipse"
  | polygon .. => "polygon"
  | path .. => "path"
  | text .. => "text"

/-- The attributes of an element, in order. -/
def keys : Element K → List String
  | group _ id _ => "class" :: id.toList.map fun _ => "id"
  | rect _ cornerRadius style =>
    ["x", "y", "width", "height"] ++ (if 0 < cornerRadius then ["rx", "ry"] else []) ++ style.keys
  | ellipse _ _ _ style => ["cx", "cy", "rx", "ry"] ++ style.keys
  | polygon _ style => "points" :: style.keys
  | path _ style markerEnd => "d" :: style.keys ++ markerEnd.toList.map fun _ => "marker-end"
  | text .. => ["text-anchor", "dominant-baseline", "font-family", "font-size", "fill"]

mutual

/-- A tag shows an element with its strings, and the tags in it what is in the element. -/
def Depicted : Element K → Node → Prop
  | group className id children, x =>
    x.name = "g" ∧ x.keys = (group className id children).keys ∧
      x.attr? "class" = some className ∧ x.attr? "id" = id ∧ x.Plain ∧
      AllDepicted children x.children
  | rect r cornerRadius style, x =>
    x.name = "rect" ∧ x.keys = (rect r cornerRadius style).keys ∧ style.Depicted x ∧ x.Empty
  | ellipse c rx ry style, x =>
    x.name = "ellipse" ∧ x.keys = (ellipse c rx ry style).keys ∧ style.Depicted x ∧ x.Empty
  | polygon points style, x =>
    x.name = "polygon" ∧ x.keys = (polygon points style).keys ∧ style.Depicted x ∧ x.Empty
  | path points style markerEnd, x =>
    x.name = "path" ∧ x.keys = (path points style markerEnd).keys ∧ style.Depicted x ∧
      x.attr? "marker-end" = markerEnd.map reference ∧ x.Empty
  | text c lines fontSize lineHeight color, x =>
    x.name = "text" ∧ x.keys = (text c lines fontSize lineHeight color).keys ∧
      x.attr? "fill" = some color ∧ x.text = "" ∧ List.Forall₂ LineDepicted lines x.children

def AllDepicted : List (Element K) → List Node → Prop
  | [], xs => xs = []
  | e :: rest, xs => ∃ x more, xs = x :: more ∧ Depicted e x ∧ AllDepicted rest more

end

end Element

namespace Marker

/-- The attributes of a marker, in order. -/
def keys : List String :=
  ["id", "viewBox", "refX", "refY", "markerUnits", "markerWidth", "markerHeight", "orient"]

/-- The tip of a marker has its color where its kind has one. -/
def TipDepicted (m : Marker) (x : Node) : Prop :=
  x.name = "path" ∧ x.Empty ∧
    match m.kind with
    | .normal => x.keys = ["d", "fill", "stroke"] ∧ x.attr? "fill" = some m.color ∧
        x.attr? "stroke" = some "none"
    | .vee => x.keys = ["d", "fill", "stroke", "stroke-width"] ∧ x.attr? "fill" = some "none" ∧
        x.attr? "stroke" = some m.color

def Depicted (m : Marker) (x : Node) : Prop :=
  x.name = "marker" ∧ x.keys = keys ∧ x.attr? "id" = some m.id ∧ x.text = "" ∧
    ∃ tip, x.children = [tip] ∧ m.TipDepicted tip

end Marker

/-- A document shows a scene: its markers, and its elements from the root down. -/
def Scene.Depicted (s : Scene K) (x : Node) : Prop :=
  x.name = "svg" ∧ x.keys = ["xmlns", "id", "width", "height", "viewBox"] ∧
    x.attr? "id" = some s.anchor ∧ x.Plain ∧
    ∃ defs root, x.children = [defs, root] ∧ defs.name = "defs" ∧ defs.keys = [] ∧ defs.Plain ∧
      List.Forall₂ Marker.Depicted s.markers defs.children ∧ s.root.Depicted root ∧
      root.tags = s.elementCount

/-! ## Names -/

theorem Style.keys_attrs (s : Style K) : s.attrs.map Prod.fst = s.keys := by
  unfold attrs keys
  cases s.dash <;> rfl

omit [Scalar K] in
theorem Style.keys_cases (s : Style K) :
    s.keys = ["fill", "stroke", "stroke-width"] ∨
      s.keys = ["fill", "stroke", "stroke-width", "stroke-dasharray"] := by
  unfold keys
  cases s.dash with
  | none => exact .inl rfl
  | some dash => exact .inr rfl

namespace Element

/-- The names of all kinds of elements are proper. -/
theorem wellNamed (e : Element K) : Xml.WellNamed e.tagName e.keys := by
  cases e with
  | group className id children =>
    cases id <;> simp only [tagName, keys, Option.toList_none, Option.toList_some, List.map_nil,
      List.map_cons] <;> decide
  | rect r cornerRadius style =>
    simp only [tagName, keys]
    rcases style.keys_cases with h | h <;> rw [h] <;> split <;> decide
  | ellipse c rx ry style =>
    simp only [tagName, keys]
    rcases style.keys_cases with h | h <;> rw [h] <;> decide
  | polygon points style =>
    simp only [tagName, keys]
    rcases style.keys_cases with h | h <;> rw [h] <;> decide
  | path points style markerEnd =>
    simp only [tagName, keys]
    rcases style.keys_cases with h | h <;> rw [h] <;> cases markerEnd <;>
      simp only [Option.toList_none, Option.toList_some, List.map_nil, List.map_cons] <;> decide
  | text c lines fontSize lineHeight color =>
    simp only [tagName, keys]
    decide

/-- What is written of an element has the attributes of its kind. -/
theorem keys_markup (e : Element K) : e.markup.attrs.map Prod.fst = e.keys := by
  cases e with
  | group className id children => cases children <;> cases id <;> rfl
  | rect r cornerRadius style =>
    simp only [markup, Markup.attrs, keys, List.map_append, style.keys_attrs]
    split <;> rfl
  | ellipse c rx ry style =>
    simp only [markup, Markup.attrs, keys, List.map_append, style.keys_attrs]
    rfl
  | polygon points style => simp only [markup, Markup.attrs, keys, List.map_cons, style.keys_attrs]
  | path points style markerEnd =>
    simp only [markup, Markup.attrs, keys, List.map_cons, List.map_append, style.keys_attrs]
    cases markerEnd <;> rfl
  | text c lines fontSize lineHeight color => rfl

theorem wellNamed_markup (e : Element K) :
    Xml.WellNamed e.tagName (e.markup.attrs.map Prod.fst) :=
  e.keys_markup ▸ e.wellNamed

theorem sound_lineTags (x y lineHeight : K) (lines : List String) :
    Markup.SoundAll (lineTags x y lineHeight lines) := by
  have htag : ∀ x y line : String,
      (Markup.inline "tspan" [("x", x), ("y", y)] [.text line]).Sound :=
    fun x y line => ⟨by simp only [List.map_cons, List.map_nil]; decide, trivial, trivial⟩
  have hall : ∀ ys : Nat → String, Markup.SoundAll (lines.mapIdx fun i line =>
      .inline "tspan" [("x", Scalar.text x), ("y", ys i)] [.text line]) := by
    induction lines with
    | nil => exact fun _ => trivial
    | cons line rest ih =>
      intro ys
      rw [List.mapIdx_cons]
      exact ⟨htag _ _ _, ih fun i => ys (i + 1)⟩
  exact hall _

mutual

theorem sound_markup : (e : Element K) → e.markup.Sound
  | group className id [] => wellNamed_markup (group className id [] : Element K)
  | group className id (child :: rest) =>
    ⟨wellNamed_markup (group className id (child :: rest)), sound_markupAll (child :: rest)⟩
  | rect r cornerRadius style => wellNamed_markup (rect r cornerRadius style)
  | ellipse c rx ry style => wellNamed_markup (ellipse c rx ry style)
  | polygon points style => wellNamed_markup (polygon points style)
  | path points style markerEnd => wellNamed_markup (path points style markerEnd)
  | text c lines fontSize lineHeight color =>
    ⟨wellNamed_markup (text c lines fontSize lineHeight color), sound_lineTags _ _ _ _⟩

theorem sound_markupAll : (es : List (Element K)) → Markup.SoundAll (markupAll es)
  | [] => trivial
  | e :: rest => ⟨sound_markup e, sound_markupAll rest⟩

end

end Element

/-! ## Strings -/

theorem lookup_of_keys {front : List (String × String)} {key : String}
    (h : key ∉ front.map Prod.fst) (rest : List (String × String)) :
    (front ++ rest).lookup key = rest.lookup key := by
  have hnone : front.lookup key = none :=
    Table.lookup_eq_none fun a ha heq => h (heq ▸ List.mem_map_of_mem ha)
  rw [List.lookup_append, hnone, Option.none_or]

/-- The strings of a style are found among other attributes. -/
theorem Style.depicted (s : Style K) (front more : List (String × String))
    (hfront : ∀ key ∈ ["fill", "stroke", "stroke-dasharray"], key ∉ front.map Prod.fst)
    (hmore : "stroke-dasharray" ∉ more.map Prod.fst) (name text : String) (xs : List Node) :
    s.Depicted (.element name (front ++ (s.attrs ++ more)) text xs) := by
  refine ⟨?_, ?_, ?_⟩
  · exact lookup_of_keys (hfront _ (by simp)) _
  · exact lookup_of_keys (hfront _ (by simp)) _
  · refine (lookup_of_keys (hfront _ (by simp)) _).trans ?_
    rw [attrs, List.append_assoc, lookup_of_keys (by simp)]
    cases s.dash with
    | none => exact Table.lookup_eq_none fun a ha heq => hmore (heq ▸ List.mem_map_of_mem ha)
    | some dash => rfl

namespace Element

open Xml (Content)

section Lines

variable (depth : Nat) (name : String) (attrs : List (String × String)) (children : List Markup)

theorem lines_void : (Markup.void name attrs).lines depth =
    ⟨indent depth ++ ['\n'], [.element name attrs "" []]⟩ := by
  simp [Markup.lines, Content.element, Content.around, Content.none]

theorem lines_block : (Markup.block name attrs children).lines depth =
    ⟨indent depth ++ ['\n'], [.element name attrs
      (String.ofList ('\n' :: ((linesAll (depth + 1) children).text ++ indent depth)))
      (linesAll (depth + 1) children).nodes]⟩ := by
  simp [Markup.lines, Content.element, Content.around]

theorem lines_inline : (Markup.inline name attrs children).lines depth =
    ⟨indent depth ++ ['\n'], [.element name attrs
      (String.ofList (Markup.contentAll children).text) (Markup.contentAll children).nodes]⟩ := by
  simp [Markup.lines, Content.element, Content.around]

end Lines

/-- Each line of a text becomes a tag of its own. -/
theorem contentAll_lineTags (x y lineHeight : K) (lines : List String) :
    ∃ xs, Markup.contentAll (lineTags x y lineHeight lines) = ⟨[], xs⟩ ∧
      List.Forall₂ LineDepicted lines xs ∧ Node.tagsAll xs = 0 := by
  have hall : ∀ ys : Nat → String, ∃ xs, Markup.contentAll (lines.mapIdx fun i line =>
      .inline "tspan" [("x", Scalar.text x), ("y", ys i)] [.text line]) = ⟨[], xs⟩ ∧
        List.Forall₂ LineDepicted lines xs ∧ Node.tagsAll xs = 0 := by
    induction lines with
    | nil => exact fun _ => ⟨[], rfl, .nil, rfl⟩
    | cons line rest ih =>
      intro ys
      obtain ⟨xs, hcontent, hlines, htags⟩ := ih fun i => ys (i + 1)
      refine ⟨.element "tspan" [("x", Scalar.text x), ("y", ys 0)] line [] :: xs, ?_,
        .cons ⟨rfl, rfl, rfl, rfl⟩ hlines, ?_⟩
      · rw [List.mapIdx_cons, Markup.contentAll, hcontent]
        simp [Markup.content, Markup.contentAll, Content.element, Content.append, Content.none]
      · rw [Node.tagsAll, htags]
        rfl
  exact hall _

mutual

/-- What is written of an element stands for a tag that shows it. -/
theorem lines_markup (depth : Nat) : (e : Element K) →
    ∃ x, e.markup.lines depth = ⟨indent depth ++ ['\n'], [x]⟩ ∧ e.Depicted x ∧ x.tags = e.count
  | group className id [] => by
    refine ⟨.element "g" _ "" [], lines_void depth "g" _, ⟨rfl, ?_, rfl, ?_, rfl, rfl⟩, rfl⟩
    · cases id <;> rfl
    · cases id <;> rfl
  | group className id (child :: rest) => by
    obtain ⟨text, xs, hlines, hblank, hall, htags⟩ := linesAll_markup (depth + 1) (child :: rest)
    refine ⟨_, lines_block depth "g" _ _, ⟨rfl, ?_, rfl, ?_, ?_, ?_⟩, ?_⟩
    · cases id <;> rfl
    · cases id <;> rfl
    · rw [← markupAll, hlines]
      simp [Node.Plain, Node.text, hblank, Markup.isBlank_indent, isBlank]
    · rw [← markupAll, hlines]
      exact hall
    · rw [← markupAll, hlines, count, ← htags]
      rfl
  | rect r cornerRadius style => by
    refine ⟨_, lines_void depth "rect" _, ⟨rfl, ?_, ?_, rfl, rfl⟩, rfl⟩
    · exact keys_markup (rect r cornerRadius style)
    · have hstyle := style.depicted ([("x", Scalar.text r.x), ("y", Scalar.text r.y),
        ("width", Scalar.text r.width), ("height", Scalar.text r.height)] ++
        if 0 < cornerRadius then
          [("rx", Scalar.text cornerRadius), ("ry", Scalar.text cornerRadius)]
        else []) [] (by split <;> simp) (by simp) "rect" "" []
      rwa [List.append_nil] at hstyle
  | ellipse c rx ry style => by
    refine ⟨_, lines_void depth "ellipse" _, ⟨rfl, ?_, ?_, rfl, rfl⟩, rfl⟩
    · exact keys_markup (ellipse c rx ry style)
    · have hstyle := style.depicted [("cx", Scalar.text c.x), ("cy", Scalar.text c.y),
        ("rx", Scalar.text rx), ("ry", Scalar.text ry)] [] (by simp) (by simp) "ellipse" "" []
      rwa [List.append_nil] at hstyle
  | polygon points style => by
    refine ⟨_, lines_void depth "polygon" _, ⟨rfl, ?_, ?_, rfl, rfl⟩, rfl⟩
    · exact keys_markup (polygon points style)
    · have hstyle := style.depicted [("points", pointList points)] [] (by simp) (by simp)
        "polygon" "" []
      rwa [List.append_nil] at hstyle
  | path points style markerEnd => by
    refine ⟨_, lines_void depth "path" _, ⟨rfl, ?_, ?_, ?_, rfl, rfl⟩, rfl⟩
    · exact keys_markup (path points style markerEnd)
    · refine style.depicted [("d", pathData points)] _ (by simp) ?_ "path" "" []
      cases markerEnd <;> simp
    · refine (lookup_of_keys ?_ _).trans ?_
      · rw [List.map_cons, style.keys_attrs]
        rcases style.keys_cases with h | h <;> rw [h] <;> simp
      · cases markerEnd <;> rfl
  | text c lines fontSize lineHeight color => by
    obtain ⟨xs, hcontent, hlines, htags⟩ := contentAll_lineTags c.x
      (c.y - ((lines.length - 1 : Nat) : K) * lineHeight / 2) lineHeight lines
    refine ⟨_, lines_inline depth "text" _ _, ⟨rfl, rfl, rfl, ?_, ?_⟩, ?_⟩
    · rw [hcontent]
      rfl
    · rw [hcontent]
      exact hlines
    · rw [hcontent, Node.tags, htags]
      rfl

theorem linesAll_markup (depth : Nat) : (es : List (Element K)) →
    ∃ text xs, linesAll depth (markupAll es) = ⟨text, xs⟩ ∧ text.all isBlank = true ∧
      AllDepicted es xs ∧ Node.tagsAll xs = countAll es
  | [] => ⟨[], [], rfl, rfl, rfl, rfl⟩
  | e :: rest => by
    obtain ⟨x, hline, hx, htags⟩ := lines_markup depth e
    obtain ⟨text, xs, hlines, hblank, hall, hcount⟩ := linesAll_markup depth rest
    refine ⟨indent depth ++ ['\n'] ++ text, x :: xs, ?_, ?_, ⟨x, xs, rfl, hx, hall⟩, ?_⟩
    · rw [markupAll, linesAll, hline, hlines]
      rfl
    · rw [List.all_append, List.all_append, Markup.isBlank_indent, hblank]
      rfl
    · rw [Node.tagsAll, htags, hcount]
      rfl

end

end Element

namespace Marker

/-- What is written of a marker has proper names. -/
theorem sound_markup (m : Marker) : m.markup.Sound := by
  refine ⟨by simp only [List.map_cons, List.map_nil]; decide, ?_, trivial⟩
  cases m.kind with
  | normal =>
    simp only [Markup.Sound, List.map_cons, List.map_nil]
    decide
  | vee =>
    simp only [Markup.Sound, List.map_cons, List.map_nil]
    decide

/-- What is written of a marker stands for a tag that shows it. -/
theorem lines_markup (depth : Nat) (m : Marker) :
    ∃ x, m.markup.lines depth = ⟨indent depth ++ ['\n'], [x]⟩ ∧ m.Depicted x := by
  refine ⟨_, Element.lines_inline depth "marker" _ _, rfl, rfl, rfl, rfl, _, rfl, rfl,
    ⟨rfl, rfl⟩, ?_⟩
  cases m.kind with
  | normal => exact ⟨rfl, rfl, rfl⟩
  | vee => exact ⟨rfl, rfl, rfl⟩

theorem linesAll_markup (depth : Nat) (ms : List Marker) :
    ∃ text xs, linesAll depth (ms.map (·.markup)) = ⟨text, xs⟩ ∧ text.all isBlank = true ∧
      List.Forall₂ Depicted ms xs := by
  induction ms with
  | nil => exact ⟨[], [], rfl, rfl, .nil⟩
  | cons m rest ih =>
    obtain ⟨x, hline, hx⟩ := m.lines_markup depth
    obtain ⟨text, xs, hlines, hblank, hall⟩ := ih
    refine ⟨indent depth ++ ['\n'] ++ text, x :: xs, ?_, ?_, .cons hx hall⟩
    · rw [List.map_cons, linesAll, hline, hlines]
      rfl
    · rw [List.all_append, List.all_append, Markup.isBlank_indent, hblank]
      rfl

theorem soundAll_markup (ms : List Marker) : Markup.SoundAll (ms.map (·.markup)) := by
  induction ms with
  | nil => trivial
  | cons m rest ih => exact ⟨m.sound_markup, ih⟩

end Marker

/-! ## Scenes -/

namespace Scene

theorem sound_markup (s : Scene K) : s.markup.Sound := by
  have hsvg : Xml.WellNamed "svg" ["xmlns", "id", "width", "height", "viewBox"] := by decide
  have hdefs : Xml.WellNamed "defs" [] := by decide
  exact ⟨hsvg, ⟨hdefs, Marker.soundAll_markup s.markers⟩, s.root.sound_markup, trivial⟩

/-- What is written of a scene stands for a document that shows it. -/
theorem lines_markup (s : Scene K) :
    ∃ x, s.markup.lines 0 = ⟨['\n'], [x]⟩ ∧ s.Depicted x := by
  obtain ⟨text, markers, hmarkers, hblank, hdepicted⟩ := Marker.linesAll_markup 2 s.markers
  obtain ⟨root, hroot, hshown, htags⟩ := s.root.lines_markup 1
  let defs : Node := .element "defs" [] (String.ofList ('\n' :: (text ++ indent 1))) markers
  have hdefs : (Markup.block "defs" [] (s.markers.map (·.markup))).lines 1 =
      ⟨indent 1 ++ ['\n'], [defs]⟩ := by
    rw [Element.lines_block, hmarkers]
  have hlines : linesAll 1 [.block "defs" [] (s.markers.map (·.markup)), s.root.markup] =
      ⟨indent 1 ++ ['\n'] ++ (indent 1 ++ ['\n']), [defs, root]⟩ := by
    rw [linesAll, linesAll, linesAll, hdefs, hroot]
    rfl
  refine ⟨_, Element.lines_block 0 "svg" _ _, rfl, rfl, rfl, ?_, defs, root, ?_, rfl, rfl,
    ?_, hdepicted, hshown, htags⟩
  · rw [hlines]
    simp [Node.Plain, Node.text, Markup.isBlank_indent, isBlank]
  · rw [hlines]
    rfl
  · simp [defs, Node.Plain, Node.text, hblank, Markup.isBlank_indent, isBlank]

/-- A scene written as SVG is read as one document that shows it, whatever its strings are. No tag
of the document has an attribute twice. -/
theorem read_toSvg (s : Scene K) :
    ∃ x, Xml.read s.toSvg = some x ∧ x.Distinct ∧ s.Depicted x := by
  obtain ⟨x, hlines, hshown⟩ := s.lines_markup
  have hread : Xml.read s.toSvg = some x := Markup.read_writeLines s.sound_markup hlines rfl
  exact ⟨x, hread, Xml.distinct_of_read hread, hshown⟩

end Scene
end Tiered
