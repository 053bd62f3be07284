/-!
# Reading XML

A reader for documents of nested tags with quoted attributes and the entities `&amp;`, `&lt;`,
`&gt;` and `&quot;`. It goes from character to character, and keeps the elements that are still
open. It refuses a tag that is closed out of turn, a value without double quotes, an attribute that
occurs twice in a tag, and an ampersand that begins none of the entities.

* `read`: the root of a document;
* `distinct_of_read`: no tag of what is read has an attribute twice.
-/

namespace Tiered.Xml

/-! ## Documents -/

/-- An element with its attributes in order, the text directly within it, and the elements in it. -/
inductive Node where
  | element (name : String) (attrs : List (String × String)) (text : String) (children : List Node)

namespace Node

def name : Node → String
  | element name _ _ _ => name

def attrs : Node → List (String × String)
  | element _ attrs _ _ => attrs

def text : Node → String
  | element _ _ text _ => text

def children : Node → List Node
  | element _ _ _ children => children

def attr? (x : Node) (key : String) : Option String := x.attrs.lookup key

end Node

/-! ## Characters -/

def isBlank (c : Char) : Bool := c = ' ' || c = '\n' || c = '\t' || c = '\r'

def isNameStart (c : Char) : Bool := c.isAlpha || c = '_' || c = ':'

def isNamePart (c : Char) : Bool := isNameStart c || c.isDigit || c = '-' || c = '.'

/-- Replaces the entities by what they stand for. -/
def decode : List Char → Option (List Char)
  | [] => some []
  | '&' :: 'a' :: 'm' :: 'p' :: ';' :: rest => (decode rest).map ('&' :: ·)
  | '&' :: 'l' :: 't' :: ';' :: rest => (decode rest).map ('<' :: ·)
  | '&' :: 'g' :: 't' :: ';' :: rest => (decode rest).map ('>' :: ·)
  | '&' :: 'q' :: 'u' :: 'o' :: 't' :: ';' :: rest => (decode rest).map ('"' :: ·)
  | '&' :: _ => none
  | c :: rest => (decode rest).map (c :: ·)

/-! ## The reader -/

/-- The beginning of an element: a name and the attributes read so far. -/
structure Tag where
  name : List Char
  attrs : List (String × String)

/-- An element that is open. Its text is kept as it is written. -/
structure Frame where
  tag : Tag
  text : List Char
  children : List Node

/-- What is being read. -/
inductive Mode where
  | content
  /-- Behind `<`. -/
  | markup
  | name (name : List Char)
  /-- Behind a blank in a tag. -/
  | inTag (tag : Tag)
  | key (tag : Tag) (key : List Char)
  /-- Behind `=`. -/
  | equals (tag : Tag) (key : List Char)
  | value (tag : Tag) (key value : List Char)
  /-- Behind the closing quote of a value. -/
  | quoted (tag : Tag)
  /-- Behind the `/` of a tag without content. -/
  | slash (tag : Tag)
  /-- In a closing tag. -/
  | closing (name : List Char)

/-- The innermost open element and those around it. The document stands for the outermost one. -/
structure State where
  mode : Mode
  inner : Frame
  outer : List Frame

def start : State := ⟨.content, ⟨⟨[], []⟩, [], []⟩, []⟩

def Tag.node? (t : Tag) (text : List Char) (children : List Node) : Option Node :=
  (decode text).map fun text =>
    .element (String.ofList t.name) t.attrs (String.ofList text) children

def Tag.add? (t : Tag) (key value : List Char) : Option Tag :=
  if String.ofList key ∈ t.attrs.map Prod.fst then none
  else (decode value).map fun value =>
    { t with attrs := t.attrs ++ [(String.ofList key, String.ofList value)] }

def Frame.addText (f : Frame) (text : List Char) : Frame := { f with text := f.text ++ text }

def Frame.addNode (f : Frame) (x : Node) : Frame := { f with children := f.children ++ [x] }

/-- What may follow the name and the attributes of a tag. -/
def Tag.leave (t : Tag) (inner : Frame) (outer : List Frame) (c : Char) : Option State :=
  if isBlank c then some ⟨.inTag t, inner, outer⟩
  else if c = '/' then some ⟨.slash t, inner, outer⟩
  else if c = '>' then some ⟨.content, ⟨t, [], []⟩, inner :: outer⟩
  else none

/-- The innermost open element is closed under its own name. -/
def State.close (s : State) (name : List Char) : Option State :=
  match s.outer with
  | [] => none
  | f :: outer =>
    if s.inner.tag.name = name then
      (s.inner.tag.node? s.inner.text s.inner.children).map fun x =>
        ⟨.content, f.addNode x, outer⟩
    else none

def step (s : State) (c : Char) : Option State :=
  match s.mode with
  | .content =>
    if c = '<' then some { s with mode := .markup }
    else some { s with inner := s.inner.addText [c] }
  | .markup =>
    if c = '/' then some { s with mode := .closing [] }
    else if isNameStart c then some { s with mode := .name [c] }
    else none
  | .name name =>
    if isNamePart c then some { s with mode := .name (name ++ [c]) }
    else Tag.leave ⟨name, []⟩ s.inner s.outer c
  | .inTag tag =>
    if isNameStart c then some { s with mode := .key tag [c] }
    else tag.leave s.inner s.outer c
  | .key tag key =>
    if isNamePart c then some { s with mode := .key tag (key ++ [c]) }
    else if c = '=' then some { s with mode := .equals tag key }
    else none
  | .equals tag key => if c = '"' then some { s with mode := .value tag key [] } else none
  | .value tag key value =>
    if c = '"' then (tag.add? key value).map fun tag => { s with mode := .quoted tag }
    else if c = '<' then none
    else some { s with mode := .value tag key (value ++ [c]) }
  | .quoted tag => tag.leave s.inner s.outer c
  | .slash tag =>
    if c = '>' then
      (tag.node? [] []).map fun x => { s with mode := .content, inner := s.inner.addNode x }
    else none
  | .closing name =>
    if isNamePart c then some { s with mode := .closing (name ++ [c]) }
    else if c = '>' then s.close name
    else none

def run (s : State) : List Char → Option State
  | [] => some s
  | c :: rest => (step s c).bind (run · rest)

/-- The root of a document that has one and no text around it. -/
def State.root? (s : State) : Option Node :=
  match s with
  | ⟨.content, ⟨_, text, [x]⟩, []⟩ => if text.all isBlank then some x else none
  | _ => none

def read (document : String) : Option Node :=
  (run start document.toList).bind State.root?

/-! ## Attributes differ -/

/-- No tag of an element has an attribute twice. -/
inductive Node.Distinct : Node → Prop
  | element {name : String} {attrs : List (String × String)} {text : String} {children : List Node}
      (keys : (attrs.map Prod.fst).Nodup) (all : ∀ x ∈ children, x.Distinct) :
      Distinct (.element name attrs text children)

def Tag.Distinct (t : Tag) : Prop := (t.attrs.map Prod.fst).Nodup

structure Frame.Distinct (f : Frame) : Prop where
  tag : f.tag.Distinct
  all : ∀ x ∈ f.children, x.Distinct

/-- The tag that is being read. -/
def Mode.tag? : Mode → Option Tag
  | .inTag t | .key t _ | .equals t _ | .value t _ _ | .quoted t | .slash t => some t
  | .content | .markup | .name _ | .closing _ => none

structure State.Distinct (s : State) : Prop where
  tag : ∀ t, s.mode.tag? = some t → t.Distinct
  inner : s.inner.Distinct
  outer : ∀ f ∈ s.outer, f.Distinct

theorem Tag.Distinct.add? {t t' : Tag} {key value : List Char} (h : t.Distinct)
    (hadd : t.add? key value = some t') : t'.Distinct := by
  unfold Tag.add? at hadd
  split at hadd
  · cases hadd
  · rename_i hnew
    obtain ⟨v, -, rfl⟩ := Option.map_eq_some_iff.mp hadd
    unfold Distinct
    rw [List.map_append, List.nodup_append]
    refine ⟨h, by simp, ?_⟩
    rintro a ha b hb rfl
    have hkey : a = String.ofList key := List.mem_singleton.mp hb
    exact hnew (hkey ▸ ha)

theorem Tag.Distinct.node? {t : Tag} {text : List Char} {children : List Node} {x : Node}
    (h : t.Distinct) (hall : ∀ x ∈ children, x.Distinct) (hx : t.node? text children = some x) :
    x.Distinct := by
  obtain ⟨text', -, rfl⟩ := Option.map_eq_some_iff.mp hx
  exact .element h hall

theorem Frame.Distinct.addNode {f : Frame} {x : Node} (h : f.Distinct) (hx : x.Distinct) :
    (f.addNode x).Distinct := by
  refine ⟨h.tag, ?_⟩
  intro y hy
  rcases List.mem_append.mp hy with hy | hy
  · exact h.all y hy
  · rw [List.mem_singleton] at hy
    exact hy ▸ hx

namespace State.Distinct

variable {s s' : State} {c : Char}

/-- Only what is being read changes, and no tag is begun with attributes. -/
theorem withMode (h : s.Distinct) {mode : Mode} (htag : ∀ t, mode.tag? = some t → t.Distinct) :
    State.Distinct { s with mode } :=
  ⟨htag, h.inner, h.outer⟩

theorem leave (h : s.Distinct) {t : Tag} (ht : t.Distinct)
    (hs : t.leave s.inner s.outer c = some s') : s'.Distinct := by
  unfold Tag.leave at hs
  have hsame : ∀ u, some t = some u → u.Distinct := fun u hu => Option.some.inj hu ▸ ht
  split at hs
  · cases hs
    exact h.withMode hsame
  · split at hs
    · cases hs
      exact h.withMode hsame
    · split at hs
      · cases hs
        refine ⟨fun _ ht => (nomatch ht), ⟨ht, List.forall_mem_nil _⟩, ?_⟩
        intro f hf
        rcases List.mem_cons.mp hf with rfl | hf
        · exact h.inner
        · exact h.outer f hf
      · cases hs

theorem close (h : s.Distinct) {name : List Char} (hs : s.close name = some s') : s'.Distinct := by
  unfold State.close at hs
  split at hs
  · cases hs
  · rename_i f outer houter
    split at hs
    · obtain ⟨x, hx, rfl⟩ := Option.map_eq_some_iff.mp hs
      have hf := h.outer f (by rw [houter]; exact List.mem_cons_self)
      refine ⟨fun _ ht => (nomatch ht), hf.addNode (h.inner.tag.node? h.inner.all hx), ?_⟩
      exact fun g hg => h.outer g (by rw [houter]; exact List.mem_cons_of_mem _ hg)
    · cases hs

theorem step (h : s.Distinct) (hs : step s c = some s') : s'.Distinct := by
  obtain ⟨mode, inner, outer⟩ := s
  -- The modes that are not in a tag behind its name carry no attributes.
  have hnone : ∀ {mode : Mode}, mode.tag? = none → ∀ t, mode.tag? = some t → t.Distinct :=
    fun hmode t ht => nomatch hmode.symm.trans ht
  have hsame : ∀ {t : Tag}, t.Distinct → ∀ u, some t = some u → u.Distinct :=
    fun ht u hu => Option.some.inj hu ▸ ht
  cases mode with
  | content =>
    simp only [Xml.step] at hs
    split at hs
    · cases hs
      exact h.withMode (hnone rfl)
    · cases hs
      exact ⟨hnone rfl, ⟨h.inner.tag, h.inner.all⟩, h.outer⟩
  | markup =>
    simp only [Xml.step] at hs
    split at hs
    · cases hs
      exact h.withMode (hnone rfl)
    · split at hs
      · cases hs
        exact h.withMode (hnone rfl)
      · cases hs
  | name name =>
    simp only [Xml.step] at hs
    split at hs
    · cases hs
      exact h.withMode (hnone rfl)
    · exact h.leave (t := ⟨name, []⟩) List.nodup_nil hs
  | inTag tag =>
    simp only [Xml.step] at hs
    have htag : tag.Distinct := h.tag tag rfl
    split at hs
    · cases hs
      exact h.withMode (hsame htag)
    · exact h.leave htag hs
  | key tag key =>
    simp only [Xml.step] at hs
    have htag : tag.Distinct := h.tag tag rfl
    split at hs
    · cases hs
      exact h.withMode (hsame htag)
    · split at hs
      · cases hs
        exact h.withMode (hsame htag)
      · cases hs
  | equals tag key =>
    simp only [Xml.step] at hs
    split at hs
    · cases hs
      exact h.withMode (hsame (h.tag tag rfl))
    · cases hs
  | value tag key value =>
    simp only [Xml.step] at hs
    have htag : tag.Distinct := h.tag tag rfl
    split at hs
    · obtain ⟨tag', hadd, rfl⟩ := Option.map_eq_some_iff.mp hs
      exact h.withMode (hsame (htag.add? hadd))
    · split at hs
      · cases hs
      · cases hs
        exact h.withMode (hsame htag)
  | quoted tag => exact h.leave (h.tag tag rfl) hs
  | slash tag =>
    simp only [Xml.step] at hs
    split at hs
    · obtain ⟨x, hx, rfl⟩ := Option.map_eq_some_iff.mp hs
      have hempty : x.Distinct := (h.tag tag rfl).node? (List.forall_mem_nil _) hx
      exact ⟨hnone rfl, h.inner.addNode hempty, h.outer⟩
    · cases hs
  | closing name =>
    simp only [Xml.step] at hs
    split at hs
    · cases hs
      exact h.withMode (hnone rfl)
    · split at hs
      · exact h.close hs
      · cases hs

theorem run {s s' : State} {cs : List Char} (h : s.Distinct) (hs : run s cs = some s') :
    s'.Distinct := by
  induction cs generalizing s with
  | nil =>
    cases hs
    exact h
  | cons c rest ih =>
    obtain ⟨s₁, hstep, hrest⟩ := Option.bind_eq_some_iff.mp hs
    exact ih (h.step hstep) hrest

theorem root? (h : s.Distinct) {x : Node} (hx : s.root? = some x) : x.Distinct := by
  unfold State.root? at hx
  split at hx
  · split at hx
    · cases hx
      exact h.inner.all _ List.mem_cons_self
    · cases hx
  · cases hx

end State.Distinct

theorem distinct_start : start.Distinct :=
  ⟨fun _ ht => (nomatch ht), ⟨List.nodup_nil, List.forall_mem_nil _⟩, List.forall_mem_nil _⟩

/-- What is read has no attribute twice in a tag. -/
theorem distinct_of_read {document : String} {x : Node} (h : read document = some x) :
    x.Distinct := by
  obtain ⟨s, hrun, hroot⟩ := Option.bind_eq_some_iff.mp h
  exact (distinct_start.run hrun).root? hroot

end Tiered.Xml
