import Tiered.Markup
import Tiered.Proofs.Markup.Xml

/-!
# What is written is read back

Markup whose tags and attributes have names is read as the elements it was written for, with the
texts and values it was written with.

* `escape_eq`: special characters are replaced one after the other, the ampersand first;
* `decode_flatMap`, `ne_of_mem_escape`: what is escaped is decoded to what it was, and ends neither
  a text nor a value;
* `run_attr`, `run_head`: a tag is read up to its end with its attributes;
* `Reads`: characters are read as content wherever content stands;
* `reads_write`, `reads_writeLines`: what is written is read as what the markup stands for;
* `read_writeLines`: a document is read as its root.
-/

namespace Tiered.Xml

open Markup (escapeChar escape)

/-! ## Escaped characters -/

/-- Replaces a character wherever it stands. -/
def replaceAll (c : Char) (image : List Char) (s : List Char) : List Char :=
  s.flatMap fun d => if d = c then image else [d]

/-- The ampersands that come with the later replacements are not replaced again. -/
theorem escape_eq (s : String) :
    escape s = replaceAll '"' ['&', 'q', 'u', 'o', 't', ';']
      (replaceAll '>' ['&', 'g', 't', ';'] (replaceAll '<' ['&', 'l', 't', ';']
        (replaceAll '&' ['&', 'a', 'm', 'p', ';'] s.toList))) := by
  simp only [replaceAll, List.flatMap_assoc, escape]
  refine congrArg (fun f => s.toList.flatMap f) (funext fun c => ?_)
  unfold escapeChar
  by_cases hamp : c = '&'
  · subst hamp
    rfl
  by_cases hlt : c = '<'
  · subst hlt
    rfl
  by_cases hgt : c = '>'
  · subst hgt
    rfl
  by_cases hquote : c = '"'
  · subst hquote
    rfl
  simp [hamp, hlt, hgt, hquote]

theorem decode_escapeChar (c : Char) (rest : List Char) :
    decode (escapeChar c ++ rest) = (decode rest).map (c :: ·) := by
  unfold escapeChar
  by_cases hamp : c = '&'
  · subst hamp
    rfl
  by_cases hlt : c = '<'
  · subst hlt
    rfl
  by_cases hgt : c = '>'
  · subst hgt
    rfl
  by_cases hquote : c = '"'
  · subst hquote
    rfl
  rw [if_neg hamp, if_neg hlt, if_neg hgt, if_neg hquote, List.singleton_append, decode]
  -- The remaining lines of `decode` begin with an ampersand.
  all_goals
    intros
    exact hamp (by assumption)

theorem decode_flatMap (s : List Char) : decode (s.flatMap escapeChar) = some s := by
  induction s with
  | nil => rfl
  | cons c rest ih => rw [List.flatMap_cons, decode_escapeChar, ih, Option.map_some]

theorem ne_of_mem_escapeChar (c : Char) : ∀ d ∈ escapeChar c, d ≠ '<' ∧ d ≠ '"' := by
  have hentity : ∀ {ds : List Char}, ds.all (fun d => d != '<' && d != '"') = true →
      ∀ d ∈ ds, d ≠ '<' ∧ d ≠ '"' := by
    intro ds hds d hd
    simpa using List.all_eq_true.mp hds d hd
  unfold escapeChar
  by_cases hamp : c = '&'
  · rw [if_pos hamp]
    exact hentity rfl
  by_cases hlt : c = '<'
  · rw [if_neg hamp, if_pos hlt]
    exact hentity rfl
  by_cases hgt : c = '>'
  · rw [if_neg hamp, if_neg hlt, if_pos hgt]
    exact hentity rfl
  by_cases hquote : c = '"'
  · rw [if_neg hamp, if_neg hlt, if_neg hgt, if_pos hquote]
    exact hentity rfl
  rw [if_neg hamp, if_neg hlt, if_neg hgt, if_neg hquote]
  intro d hd
  rw [List.mem_singleton] at hd
  subst hd
  exact ⟨hlt, hquote⟩

/-- An escaped text ends neither itself nor the value that it stands in. -/
theorem ne_of_mem_escape {s : List Char} {c : Char} (h : c ∈ s.flatMap escapeChar) :
    c ≠ '<' ∧ c ≠ '"' := by
  obtain ⟨d, -, hd⟩ := List.mem_flatMap.mp h
  exact ne_of_mem_escapeChar d c hd

theorem flatMap_escapeChar_of_blank {s : List Char} (h : s.all isBlank = true) :
    s.flatMap escapeChar = s := by
  induction s with
  | nil => rfl
  | cons c rest ih =>
    rw [List.all_cons, Bool.and_eq_true] at h
    have hc : escapeChar c = [c] := by
      have hblank := h.1
      simp only [isBlank, Bool.or_eq_true, decide_eq_true_eq] at hblank
      rcases hblank with ((rfl | rfl) | rfl) | rfl <;> rfl
    rw [List.flatMap_cons, hc, ih h.2, List.singleton_append]

/-! ## Running -/

theorem run_append (s : State) (cs ds : List Char) :
    run s (cs ++ ds) = (run s cs).bind (run · ds) := by
  induction cs generalizing s with
  | nil => rfl
  | cons c rest ih =>
    simp only [List.cons_append, run, Option.bind_assoc]
    cases step s c with
    | none => rfl
    | some t => exact ih t

/-- Characters that a mode gathers are gathered one after the other. -/
theorem run_gather (mode : List Char → Mode) (p : Char → Prop) {inner : Frame}
    {outer : List Frame}
    (hstep : ∀ read c, p c →
      step ⟨mode read, inner, outer⟩ c = some ⟨mode (read ++ [c]), inner, outer⟩)
    {cs : List Char} (hcs : ∀ c ∈ cs, p c) (read : List Char) :
    run ⟨mode read, inner, outer⟩ cs = some ⟨mode (read ++ cs), inner, outer⟩ := by
  induction cs generalizing read with
  | nil => rw [List.append_nil]; rfl
  | cons c rest ih =>
    rw [run, hstep read c (hcs c List.mem_cons_self), Option.bind_some,
      ih fun d hd => hcs d (List.mem_cons_of_mem _ hd), List.append_assoc, List.singleton_append]

/-- Text that begins no tag is kept. -/
theorem run_text {cs : List Char} (hcs : ∀ c ∈ cs, c ≠ '<') (inner : Frame)
    (outer : List Frame) :
    run ⟨.content, inner, outer⟩ cs = some ⟨.content, inner.addText cs, outer⟩ := by
  induction cs generalizing inner with
  | nil => simp [run, Frame.addText]
  | cons c rest ih =>
    have hc : step ⟨.content, inner, outer⟩ c = some ⟨.content, inner.addText [c], outer⟩ :=
      if_neg (hcs c List.mem_cons_self)
    rw [run, hc, Option.bind_some, ih fun d hd => hcs d (List.mem_cons_of_mem _ hd)]
    simp [Frame.addText]

/-! ## Tags -/

/-- A name of a tag or of an attribute. -/
def isName : List Char → Bool
  | [] => false
  | c :: rest => isNameStart c && rest.all isNamePart

/-- A tag has a name, and attributes with names that differ. -/
def WellNamed (name : String) (keys : List String) : Prop :=
  isName name.toList = true ∧ (∀ key ∈ keys, isName key.toList = true) ∧ keys.Nodup

instance (name : String) (keys : List String) : Decidable (WellNamed name keys) :=
  inferInstanceAs (Decidable (_ ∧ _ ∧ _))

theorem exists_of_isName {name : List Char} (h : isName name = true) :
    ∃ c rest, name = c :: rest ∧ isNameStart c = true ∧ ∀ d ∈ rest, isNamePart d = true := by
  cases name with
  | nil => cases h
  | cons c rest =>
    simp only [isName, Bool.and_eq_true, List.all_eq_true] at h
    exact ⟨c, rest, rfl, h.1, h.2⟩

theorem isNamePart_of_isName {name : List Char} (h : isName name = true) :
    ∀ c ∈ name, isNamePart c = true := by
  obtain ⟨c, rest, rfl, hc, hrest⟩ := exists_of_isName h
  intro d hd
  rcases List.mem_cons.mp hd with rfl | hd
  · rw [isNamePart, hc]
    rfl
  · exact hrest d hd

section Tags

variable {inner : Frame} {outer : List Frame}

theorem run_name {name : List Char} (h : isName name = true) :
    run ⟨.markup, inner, outer⟩ name = some ⟨.name name, inner, outer⟩ := by
  obtain ⟨c, rest, rfl, hc, hrest⟩ := exists_of_isName h
  have hslash : c ≠ '/' := by
    rintro rfl
    revert hc
    decide
  have hfirst : step ⟨.markup, inner, outer⟩ c = some ⟨.name [c], inner, outer⟩ := by
    simp only [step]
    rw [if_neg hslash, if_pos hc]
  rw [run, hfirst, Option.bind_some]
  exact run_gather .name (isNamePart · = true) (fun read d hd => if_pos hd) hrest [c]

theorem run_key {tag : Tag} {key : List Char} (h : isName key = true) :
    run ⟨.inTag tag, inner, outer⟩ key = some ⟨.key tag key, inner, outer⟩ := by
  obtain ⟨c, rest, rfl, hc, hrest⟩ := exists_of_isName h
  have hfirst : step ⟨.inTag tag, inner, outer⟩ c = some ⟨.key tag [c], inner, outer⟩ := if_pos hc
  rw [run, hfirst, Option.bind_some]
  exact run_gather (.key tag) (isNamePart · = true) (fun read d hd => if_pos hd) hrest [c]

theorem run_value (tag : Tag) (key value : List Char) :
    run ⟨.value tag key [], inner, outer⟩ (value.flatMap escapeChar) =
      some ⟨.value tag key (value.flatMap escapeChar), inner, outer⟩ := by
  refine run_gather (.value tag key) (fun c => c ≠ '<' ∧ c ≠ '"') ?_
    (fun c hc => ne_of_mem_escape hc) []
  intro read c hc
  simp only [step]
  rw [if_neg hc.2, if_neg hc.1]

/-- An attribute is read with the value that was written. -/
theorem run_attr {tag : Tag} {a : String × String} (hkey : isName a.1.toList = true)
    (hnew : a.1 ∉ tag.attrs.map Prod.fst) :
    run ⟨.inTag tag, inner, outer⟩ (a.1.toList ++ '=' :: '"' :: escape a.2 ++ ['"']) =
      some ⟨.quoted { tag with attrs := tag.attrs ++ [a] }, inner, outer⟩ := by
  have hadd : tag.add? a.1.toList (escape a.2) = some { tag with attrs := tag.attrs ++ [a] } := by
    rw [Tag.add?, String.ofList_toList, if_neg hnew, escape, decode_flatMap, Option.map_some,
      String.ofList_toList]
  have hequals : step ⟨.key tag a.1.toList, inner, outer⟩ '=' =
      some ⟨.equals tag a.1.toList, inner, outer⟩ := rfl
  have hopen : step ⟨.equals tag a.1.toList, inner, outer⟩ '"' =
      some ⟨.value tag a.1.toList [], inner, outer⟩ := rfl
  have hclose : step ⟨.value tag a.1.toList (escape a.2), inner, outer⟩ '"' =
      (tag.add? a.1.toList (escape a.2)).map fun tag => ⟨.quoted tag, inner, outer⟩ := rfl
  rw [List.append_assoc, run_append, run_key hkey, Option.bind_some, List.cons_append, run, hequals,
    Option.bind_some, List.cons_append, run, hopen, Option.bind_some, run_append, escape, run_value,
    Option.bind_some, ← escape, run, hclose, hadd]
  rfl

theorem run_attrs {tag : Tag} {attrs : List (String × String)}
    (hkeys : ∀ a ∈ attrs, isName a.1.toList = true)
    (hd : ((tag.attrs ++ attrs).map Prod.fst).Nodup) :
    run ⟨.quoted tag, inner, outer⟩ (attrs.flatMap Markup.writeAttr) =
      some ⟨.quoted { tag with attrs := tag.attrs ++ attrs }, inner, outer⟩ := by
  induction attrs generalizing tag with
  | nil => simp [run]
  | cons a rest ih =>
    have hblank : step ⟨.quoted tag, inner, outer⟩ ' ' = some ⟨.inTag tag, inner, outer⟩ := rfl
    have hnew : a.1 ∉ tag.attrs.map Prod.fst := by
      rw [List.map_append, List.nodup_append] at hd
      exact fun hmem => hd.2.2 _ hmem a.1 (by simp) rfl
    rw [List.flatMap_cons, run_append, Markup.writeAttr, List.cons_append, List.cons_append, run,
      hblank, Option.bind_some, run_attr (hkeys a List.mem_cons_self) hnew, Option.bind_some,
      ih fun b hb => hkeys b (List.mem_cons_of_mem _ hb)]
    · rw [List.append_assoc, List.singleton_append]
    · rwa [List.append_assoc, List.singleton_append]

/-- A tag is read up to its end. -/
theorem run_head {name : String} {attrs : List (String × String)}
    (h : WellNamed name (attrs.map Prod.fst)) {c : Char} (hc : isNamePart c = false) :
    run ⟨.markup, inner, outer⟩ (Markup.writeHead name attrs ++ [c]) =
      Tag.leave ⟨name.toList, attrs⟩ inner outer c := by
  obtain ⟨hname, hkeys, hd⟩ := h
  have hleave : ∀ d, isNamePart d = false → step ⟨.name name.toList, inner, outer⟩ d =
      step ⟨.quoted ⟨name.toList, []⟩, inner, outer⟩ d := by
    intro d hd
    simp only [step]
    rw [if_neg (by rw [hd]; exact Bool.false_ne_true)]
  rw [Markup.writeHead, List.append_assoc, run_append, run_name hname, Option.bind_some]
  -- Whatever follows the name, it is read as behind an attribute.
  have hquoted : run ⟨.name name.toList, inner, outer⟩ (attrs.flatMap Markup.writeAttr ++ [c]) =
      run ⟨.quoted ⟨name.toList, []⟩, inner, outer⟩ (attrs.flatMap Markup.writeAttr ++ [c]) := by
    cases attrs with
    | nil => simp only [List.flatMap_nil, List.nil_append, run, hleave c hc]
    | cons a rest =>
      simp only [List.flatMap_cons, Markup.writeAttr, List.cons_append, run,
        hleave ' ' (by decide)]
  have hattrs : run ⟨.quoted ⟨name.toList, []⟩, inner, outer⟩
      (attrs.flatMap Markup.writeAttr) = some ⟨.quoted ⟨name.toList, attrs⟩, inner, outer⟩ :=
    run_attrs (fun a ha => hkeys _ (List.mem_map_of_mem ha)) hd
  rw [hquoted, run_append, hattrs, Option.bind_some]
  exact Option.bind_fun_some _

theorem run_opening {name : String} {attrs : List (String × String)}
    (h : WellNamed name (attrs.map Prod.fst)) :
    run ⟨.content, inner, outer⟩ (Markup.opening name attrs) =
      some ⟨.content, ⟨⟨name.toList, attrs⟩, [], []⟩, inner :: outer⟩ := by
  have hmarkup : step ⟨.content, inner, outer⟩ '<' = some ⟨.markup, inner, outer⟩ := rfl
  rw [Markup.opening, List.cons_append, run, hmarkup, Option.bind_some, run_head h (by decide)]
  rfl

theorem run_selfClosing {name : String} {attrs : List (String × String)}
    (h : WellNamed name (attrs.map Prod.fst)) :
    run ⟨.content, inner, outer⟩ (Markup.selfClosing name attrs) =
      some ⟨.content, inner.addNode (.element name attrs "" []), outer⟩ := by
  have hmarkup : step ⟨.content, inner, outer⟩ '<' = some ⟨.markup, inner, outer⟩ := rfl
  have hends : ['/', '>'] = ['/'] ++ ['>'] := rfl
  have hslash : Tag.leave ⟨name.toList, attrs⟩ inner outer '/' =
      some ⟨.slash ⟨name.toList, attrs⟩, inner, outer⟩ := rfl
  have hnode : Tag.node? ⟨name.toList, attrs⟩ [] [] = some (.element name attrs "" []) := by
    simp [Tag.node?, decode]
  have hend : step ⟨.slash ⟨name.toList, attrs⟩, inner, outer⟩ '>' =
      (Tag.node? ⟨name.toList, attrs⟩ [] []).map fun x =>
        ⟨.content, inner.addNode x, outer⟩ := rfl
  rw [Markup.selfClosing, List.cons_append, run, hmarkup, Option.bind_some, hends,
    ← List.append_assoc, run_append, run_head h (by decide), hslash, Option.bind_some, run, hend,
    hnode]
  rfl

/-- An element is closed under its name, with the text that was written in it. -/
theorem run_closing {name : String} (h : isName name.toList = true)
    (attrs : List (String × String)) (text : List Char) (children : List Node) :
    run ⟨.content, ⟨⟨name.toList, attrs⟩, text.flatMap escapeChar, children⟩, inner :: outer⟩
        (Markup.closing name) =
      some ⟨.content, inner.addNode (.element name attrs (String.ofList text) children), outer⟩ := by
  have hmarkup : ∀ f, step ⟨.content, f, inner :: outer⟩ '<' =
      some ⟨.markup, f, inner :: outer⟩ := fun _ => rfl
  have hslash : ∀ f, step ⟨.markup, f, inner :: outer⟩ '/' =
      some ⟨.closing [], f, inner :: outer⟩ := fun _ => rfl
  have hname : ∀ f, run ⟨.closing [], f, inner :: outer⟩ name.toList =
      some ⟨.closing name.toList, f, inner :: outer⟩ := fun f =>
    run_gather .closing (isNamePart · = true) (fun read d hd => if_pos hd)
      (isNamePart_of_isName h) []
  have hend : ∀ f, step ⟨.closing name.toList, f, inner :: outer⟩ '>' =
      State.close ⟨.closing name.toList, f, inner :: outer⟩ name.toList := fun _ => rfl
  have hclose : State.close ⟨.closing name.toList,
      ⟨⟨name.toList, attrs⟩, text.flatMap escapeChar, children⟩, inner :: outer⟩ name.toList =
      some ⟨.content, inner.addNode (.element name attrs (String.ofList text) children), outer⟩ := by
    simp [State.close, Tag.node?, decode_flatMap]
  rw [Markup.closing, List.cons_append, List.cons_append, run, hmarkup, Option.bind_some, run,
    hslash, Option.bind_some, run_append, hname, Option.bind_some, run, hend, hclose]
  rfl

end Tags

/-! ## Content -/

/-- What stands in an element: its own text and its elements. -/
structure Content where
  text : List Char
  nodes : List Node

namespace Content

def none : Content := ⟨[], []⟩

def append (a b : Content) : Content := ⟨a.text ++ b.text, a.nodes ++ b.nodes⟩

/-- Text around what is there. -/
def around (a : Content) (before behind : List Char) : Content :=
  ⟨before ++ a.text ++ behind, a.nodes⟩

/-- An element with this content. -/
def element (a : Content) (name : String) (attrs : List (String × String)) : Content :=
  ⟨[], [.element name attrs (String.ofList a.text) a.nodes]⟩

end Content

/-- Content that was read, as it is written. -/
def Frame.add (f : Frame) (a : Content) : Frame :=
  ⟨f.tag, f.text ++ a.text.flatMap escapeChar, f.children ++ a.nodes⟩

/-- Where content stands, these characters are read as this content. -/
def Reads (cs : List Char) (a : Content) : Prop :=
  ∀ f outer, run ⟨.content, f, outer⟩ cs = some ⟨.content, f.add a, outer⟩

theorem reads_nil : Reads [] .none := by
  intro f outer
  simp [run, Frame.add, Content.none]

theorem Reads.append {cs ds : List Char} {a b : Content} (hc : Reads cs a) (hd : Reads ds b) :
    Reads (cs ++ ds) (a.append b) := by
  intro f outer
  have hadd : f.add (a.append b) = (f.add a).add b := by simp [Frame.add, Content.append]
  rw [run_append, hc, Option.bind_some, hd, hadd]

theorem reads_escape (s : List Char) : Reads (s.flatMap escapeChar) ⟨s, []⟩ := by
  intro f outer
  rw [run_text fun c hc => (ne_of_mem_escape hc).1]
  simp [Frame.add, Frame.addText]

theorem reads_blank {s : List Char} (h : s.all isBlank = true) : Reads s ⟨s, []⟩ := by
  have hread := reads_escape s
  rwa [flatMap_escapeChar_of_blank h] at hread

theorem Reads.around {cs : List Char} {a : Content} (h : Reads cs a) (before behind : List Char)
    (hbefore : before.all isBlank = true) (hbehind : behind.all isBlank = true) :
    Reads (before ++ cs ++ behind) (a.around before behind) := by
  have hread := ((reads_blank hbefore).append h).append (reads_blank hbehind)
  simpa only [Content.append, Content.around, List.append_nil, List.nil_append] using hread

section Elements

variable {name : String} {attrs : List (String × String)}
  (hnamed : WellNamed name (attrs.map Prod.fst))

include hnamed

theorem reads_selfClosing :
    Reads (Markup.selfClosing name attrs) (Content.none.element name attrs) := by
  intro f outer
  rw [run_selfClosing hnamed]
  simp [Frame.add, Frame.addNode, Content.element, Content.none]

/-- An element is read with what is in it. -/
theorem Reads.element {cs : List Char} {a : Content} (h : Reads cs a) :
    Reads (Markup.opening name attrs ++ cs ++ Markup.closing name) (a.element name attrs) := by
  intro f outer
  have hinner : (⟨⟨name.toList, attrs⟩, [], []⟩ : Frame).add a =
      ⟨⟨name.toList, attrs⟩, a.text.flatMap escapeChar, a.nodes⟩ := by simp [Frame.add]
  rw [run_append, run_append, run_opening hnamed, Option.bind_some, h, Option.bind_some, hinner,
    run_closing hnamed.1]
  simp [Frame.add, Frame.addNode, Content.element]

end Elements

end Tiered.Xml

namespace Tiered.Markup

open Xml (Content Node Reads WellNamed isBlank)

/-! ## Markup -/

def attrs : Markup → List (String × String)
  | text _ => []
  | void _ attrs | block _ attrs _ | inline _ attrs _ => attrs

mutual

/-- All tags are well named. -/
def Sound : Markup → Prop
  | text _ => True
  | void name attrs => WellNamed name (attrs.map Prod.fst)
  | block name attrs children | inline name attrs children =>
    WellNamed name (attrs.map Prod.fst) ∧ SoundAll children

def SoundAll : List Markup → Prop
  | [] => True
  | m :: rest => Sound m ∧ SoundAll rest

end

mutual

/-- What markup within a line stands for. -/
def content : Markup → Content
  | text s => ⟨s.toList, []⟩
  | void name attrs => Content.none.element name attrs
  | block name attrs children | inline name attrs children =>
    (contentAll children).element name attrs

def contentAll : List Markup → Content
  | [] => .none
  | m :: rest => (content m).append (contentAll rest)

end

mutual

/-- What markup on lines of its own stands for. The blanks that set it out are text, too. -/
def lines (depth : Nat) : Markup → Content
  | text s => Content.around ⟨s.toList, []⟩ (indent depth) ['\n']
  | void name attrs => (Content.none.element name attrs).around (indent depth) ['\n']
  | block name attrs children =>
    (((linesAll (depth + 1) children).around ['\n'] (indent depth)).element name attrs).around
      (indent depth) ['\n']
  | inline name attrs children =>
    ((contentAll children).element name attrs).around (indent depth) ['\n']

def linesAll (depth : Nat) : List Markup → Content
  | [] => .none
  | m :: rest => (lines depth m).append (linesAll depth rest)

end

theorem isBlank_indent (depth : Nat) : (indent depth).all isBlank = true := by
  simp [indent, isBlank]

mutual

/-- Markup in a line is read as what it stands for. -/
theorem reads_write : {m : Markup} → m.Sound → Reads m.write m.content
  | .text s, _ => Xml.reads_escape s.toList
  | .void _ _, h => Xml.reads_selfClosing h
  | .block _ _ _, h => (reads_writeAll h.2).element h.1
  | .inline _ _ _, h => (reads_writeAll h.2).element h.1

theorem reads_writeAll : {ms : List Markup} → SoundAll ms → Reads (writeAll ms) (contentAll ms)
  | [], _ => Xml.reads_nil
  | _ :: _, h => (reads_write h.1).append (reads_writeAll h.2)

end

mutual

/-- Markup on lines is read as what it stands for. -/
theorem reads_writeLines (depth : Nat) :
    {m : Markup} → m.Sound → Reads (m.writeLines depth) (m.lines depth)
  | .text s, _ =>
    (Xml.reads_escape s.toList).around (indent depth) ['\n'] (isBlank_indent depth) rfl
  | .void _ _, h =>
    (Xml.reads_selfClosing h).around (indent depth) ['\n'] (isBlank_indent depth) rfl
  | .block name attrs children, h => by
    have hinner := (reads_writeAllLines (depth + 1) h.2).around ['\n'] (indent depth) rfl
      (isBlank_indent depth)
    have houter := (hinner.element h.1).around (indent depth) ['\n'] (isBlank_indent depth) rfl
    simpa only [writeLines, lines, List.append_assoc, List.cons_append,
      List.nil_append] using houter
  | .inline name attrs children, h => by
    have houter := ((reads_writeAll h.2).element h.1).around (indent depth) ['\n']
      (isBlank_indent depth) rfl
    simpa only [writeLines, lines, List.append_assoc] using houter

theorem reads_writeAllLines (depth : Nat) :
    {ms : List Markup} → SoundAll ms → Reads (writeAllLines depth ms) (linesAll depth ms)
  | [], _ => Xml.reads_nil
  | _ :: _, h => (reads_writeLines depth h.1).append (reads_writeAllLines depth h.2)

end

/-- A document is read as its root. -/
theorem read_writeLines {m : Markup} (h : m.Sound) {x : Node} {text : List Char}
    (hroot : m.lines 0 = ⟨text, [x]⟩) (hblank : text.all isBlank = true) :
    Xml.read (String.ofList (m.writeLines 0)) = some x := by
  have hread := reads_writeLines 0 h ⟨⟨[], []⟩, [], []⟩ []
  rw [Xml.read, String.toList_ofList, Xml.start, hread, hroot]
  simp [Xml.State.root?, Xml.Frame.add, Xml.flatMap_escapeChar_of_blank hblank, hblank]

end Tiered.Markup
