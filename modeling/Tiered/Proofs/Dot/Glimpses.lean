import Mathlib.Data.List.DropRight
import Tiered.Proofs.Dot.Targets

/-!
# What the glimpse of an error shows

An error shows what stands at its place, up to the end of the line. What is left where reading
fails begins with no blank, so that there is something to be shown unless the text is at its end. A
block too many is found right behind its brace: blanks may follow, and the glimpse says that the
text ends where only its line does.

* `shows_glimpse_iff`: a glimpse shows text if and only if the line has more than blanks;
* `blankLine_iff_of_visible`: where no blank begins, only the end of the text leaves a line blank;
* `block_tooDeep`: braces that open too many blocks are found behind the last of them;
* `ofDot_tooDeep`: so is the error, whatever may follow;
* `ofDot_glimpse`: which errors show text, and which texts behind too many braces are not shown.
-/
namespace Tiered

namespace Text

theorem strip_prefix_dropWhile (s : List Char) : strip s <+: s.dropWhile isBlank :=
  List.rdropWhile_prefix isBlank (s.dropWhile isBlank)

/-- Nothing is left of a text if and only if it is blank. -/
theorem strip_eq_nil_iff {s : List Char} : strip s = [] ↔ s.all isBlank = true := by
  have hright : strip s = [] ↔ ∀ c ∈ s.dropWhile isBlank, isBlank c = true :=
    List.rdropWhile_eq_nil_iff
  rw [hright, List.all_eq_true]
  constructor
  · intro h c hc
    rw [← List.takeWhile_append_dropWhile (p := isBlank) (l := s), List.mem_append] at hc
    exact hc.elim List.mem_takeWhile_imp (h c)
  · intro h c hc
    exact h c ((List.dropWhile_sublist isBlank).mem hc)

end Text

namespace Dot

open Text (isBlank strip)

/-! ## Lines and their glimpses -/

/-- The first line of a text, without the line break. -/
def firstLine (s : List Char) : List Char := s.takeWhile (· ≠ '\n')

/-- Nothing but blanks stands before the end of the line. -/
def BlankLine (s : List Char) : Prop := (firstLine s).all isBlank = true

instance (s : List Char) : Decidable (BlankLine s) := inferInstanceAs (Decidable (_ = true))

/-- A glimpse shows text of the first line, from the first character on that is not blank. Dots
follow it where it is cut. -/
def Shows (s : List Char) (glimpse : String) : Prop :=
  ∃ blanks shown behind, firstLine s = blanks ++ (shown ++ behind) ∧
    blanks.all isBlank = true ∧ shown ≠ [] ∧ Visible shown ∧
    (glimpse = String.ofList shown ∨
      shown.length = glimpseLength ∧ glimpse = String.ofList shown ++ "...")

theorem Shows.not_blankLine {s : List Char} {g : String} (h : Shows s g) : ¬ BlankLine s := by
  obtain ⟨blanks, shown, behind, hline, -, hne, hvisible, -⟩ := h
  intro hblank
  obtain ⟨c, shown, rfl⟩ := List.exists_cons_of_ne_nil hne
  have hc := List.all_eq_true.mp hblank c (by simp [hline])
  rw [hvisible c rfl] at hc
  cases hc

/-- What begins the line without its blanks begins what is behind its first blanks. -/
theorem shows_of_prefix {s shown : List Char} {g : String} (hne : shown ≠ [])
    (hshown : shown <+: strip (firstLine s))
    (hg : g = String.ofList shown ∨
      shown.length = glimpseLength ∧ g = String.ofList shown ++ "...") : Shows s g := by
  obtain ⟨behind, hbehind⟩ := hshown.trans (Text.strip_prefix_dropWhile (firstLine s))
  refine ⟨(firstLine s).takeWhile isBlank, shown, behind, ?_, ?_, hne, ?_, hg⟩
  · rw [hbehind, List.takeWhile_append_dropWhile]
  · exact List.all_eq_true.mpr fun c hc => List.mem_takeWhile_imp hc
  · intro c hc
    have hhead := List.head?_dropWhile_not isBlank (firstLine s)
    rw [← hbehind, List.head?_append_of_ne_nil shown hne, Option.mem_def.mp hc] at hhead
    simpa using hhead

theorem glimpse_of_blankLine {s : List Char} (h : BlankLine s) : glimpse s = "end of input" := by
  have hnil : strip (firstLine s) = [] := Text.strip_eq_nil_iff.mpr h
  rw [firstLine] at hnil
  rw [glimpse, hnil]

theorem shows_glimpse_iff {s : List Char} : Shows s (glimpse s) ↔ ¬ BlankLine s := by
  refine ⟨Shows.not_blankLine, fun h => ?_⟩
  have hne : strip (firstLine s) ≠ [] := fun hnil => h (Text.strip_eq_nil_iff.mp hnil)
  unfold glimpse
  rw [← firstLine]
  split
  · next hnil => exact absurd hnil hne
  · split
    · next hlong =>
      have hlength : ((strip (firstLine s)).take glimpseLength).length = glimpseLength :=
        List.length_take_of_le (Nat.le_of_lt hlong)
      refine shows_of_prefix ?_ (List.take_prefix glimpseLength _) (.inr ⟨hlength, rfl⟩)
      rw [← List.length_pos_iff, hlength]
      decide
    · exact shows_of_prefix hne (List.prefix_refl _) (.inl rfl)

theorem blankLine_nil : BlankLine [] := rfl

/-- Where no blank begins a text, its line is blank at its end only. -/
theorem blankLine_iff_of_visible {s : List Char} (h : Visible s) : BlankLine s ↔ s = [] := by
  constructor
  · intro hblank
    cases s with
    | nil => rfl
    | cons c s =>
      have hc := h c rfl
      have hbreak : c ≠ '\n' := by rintro rfl; cases hc
      have hfirst := List.all_eq_true.mp hblank c (by simp [firstLine, hbreak])
      rw [hc] at hfirst
      cases hfirst
  · rintro rfl
    exact blankLine_nil

/-! ## Blocks too many -/

theorem item_failed_of_block {b : BlockReader} {u : List Char} {f : Failure}
    (h : b.read u = .error f) : stmt? b ('\x7b' :: u) = .error f := by
  have hsubgraph : subgraph? b ('\x7b' :: u) = .error f := by
    have hword : word? ('\x7b' :: u) = none := rfl
    rw [subgraph?, hword, h]
    rfl
  have hendpoint : endpoint? b ('\x7b' :: u) = .error f := by
    rw [endpoint?, hsubgraph]
    rfl
  exact item_failed_of_endpoint (skipBlanks_brace u) hendpoint

/-- Where as many braces as there may be blocks are followed by whatever else, there is one block
too many, and it is found behind the last of them. -/
theorem block_tooDeep (depth : Nat) (u : List Char) :
    (block depth).read (List.replicate depth '\x7b' ++ u) = .error ⟨.nestedTooDeeply, u⟩ := by
  induction depth with
  | zero => rfl
  | succ depth ih =>
    show statements (block depth) ('\x7b' :: (List.replicate depth '\x7b' ++ u)) = _
    rw [statements, many_failed (item_failed_of_block ih)]
    rfl

/-- The beginning of a graph, with braces that open one block too many. -/
def tooDeep : String :=
  "digraph\x7b" ++ String.ofList (List.replicate (maxNesting + 1) '\x7b')

theorem toList_tooDeep :
    tooDeep.toList = "digraph\x7b".toList ++ '\x7b' :: List.replicate maxNesting '\x7b' := by
  rw [tooDeep, String.toList_append]
  exact congrArg (_ ++ ·) (String.toList_ofList.trans List.replicate_succ)

theorem utf8Size_tooDeep : utf8Size tooDeep.toList = 137 := by decide +kernel

theorem document_tooDeep (u : List Char) :
    document (tooDeep.toList ++ u) = .error ⟨.nestedTooDeeply, u⟩ := by
  rw [toList_tooDeep, List.append_assoc]
  exact document_failed (item_failed_of_block (block_tooDeep maxNesting u))

/-! ## Errors -/

/-- Whatever follows the braces of a block too many, the error is found behind them. -/
theorem ofDot_tooDeep (u : String) :
    ∃ e, Graph.ofDot (tooDeep ++ u) = .error e ∧ e.message = "subgraphs nested too deeply" ∧
      e.offset = utf8Size tooDeep.toList ∧ e.snippet = glimpse u.toList := by
  have hsource : (tooDeep ++ u).toList = tooDeep.toList ++ u.toList := String.toList_append
  have hdocument : document (tooDeep ++ u).toList = .error ⟨.nestedTooDeeply, u.toList⟩ := by
    rw [hsource, document_tooDeep]
  obtain ⟨before, e, hbefore, he, hmessage, hoffset, hsnippet⟩ := located hdocument
  obtain rfl : tooDeep.toList = before := List.append_cancel_right (hsource.symm.trans hbefore)
  exact ⟨e, he, hmessage, hoffset, hsnippet⟩

/-- **An error shows what stands at its place.** What is left at the place of an error begins with
no blank, or the place is right behind the brace of a block too many. Text is shown if and only if
any is left, and there is no block too many whose brace has nothing but blanks behind it on its
line. Otherwise the text is said to end. Behind the braces that open a block too many, whatever may
follow, it is shown if and only if it does not begin with a blank line. -/
theorem ofDot_glimpse {source : String} {e : SyntaxError} (h : Graph.ofDot source = .error e) :
    (∃ before rest, source.toList = before ++ rest ∧ utf8Size before = e.offset ∧
      (Visible rest ∨
        e.message = "subgraphs nested too deeply" ∧ BehindBrace source.toList rest) ∧
      (Shows rest e.snippet ↔
        rest ≠ [] ∧ ¬ (e.message = "subgraphs nested too deeply" ∧ BlankLine rest)) ∧
      (¬ Shows rest e.snippet → e.snippet = "end of input")) ∧
    ∀ u : String, source = tooDeep ++ u →
      e.message = "subgraphs nested too deeply" ∧ e.offset = utf8Size tooDeep.toList ∧
        (Shows u.toList e.snippet ↔ ¬ BlankLine u.toList) := by
  constructor
  · obtain ⟨f, hf⟩ := document_of_ofDot h
    obtain ⟨us, hus⟩ := document_fails hf
    obtain ⟨before, e', hbefore, he, hmessage, hoffset, hsnippet⟩ := located hf
    obtain rfl := Except.error.inj (h.symm.trans he)
    have hstands : Visible f.rest ∨
        e.message = "subgraphs nested too deeply" ∧ BehindBrace source.toList f.rest :=
      hus.stands.imp_right (And.imp_left fun hfault => by rw [hmessage, hfault]; rfl)
    refine ⟨before, f.rest, hbefore, hoffset.symm, hstands, ?_⟩
    rw [hsnippet, shows_glimpse_iff, not_not]
    refine ⟨⟨fun hline => ⟨?_, fun hdeep => hline hdeep.2⟩, ?_⟩, glimpse_of_blankLine⟩
    · intro hnil
      exact hline (hnil ▸ blankLine_nil)
    · rintro ⟨hne, hdeep⟩ hline
      obtain hvisible | ⟨hmessage, -⟩ := hstands
      · exact hne ((blankLine_iff_of_visible hvisible).mp hline)
      · exact hdeep ⟨hmessage, hline⟩
  · rintro u rfl
    obtain ⟨e', he, hmessage, hoffset, hsnippet⟩ := ofDot_tooDeep u
    obtain rfl := Except.error.inj (h.symm.trans he)
    refine ⟨hmessage, hoffset, ?_⟩
    rw [hsnippet]
    exact shows_glimpse_iff

/-- An edge without a target on the second line. -/
def targetless : String := "digraph \x7b\n  a -> ;\n\x7d"

/-- The `;` in place of the target is shown, and a line break behind too many braces is not seen
past. -/
theorem ofDot_glimpse_targetless :
    (Graph.ofDot targetless = .error ⟨"edge is missing its target", 17, 2, 8, ";"⟩ ∧
      ∃ before rest, targetless.toList = before ++ rest ∧ utf8Size before = 17 ∧
        Shows rest ";") ∧
    ∃ e, Graph.ofDot (tooDeep ++ "\n\x7d") = .error e ∧ ¬ Shows "\n\x7d".toList e.snippet := by
  have herror : Graph.ofDot targetless =
      .error ⟨"edge is missing its target", 17, 2, 8, ";"⟩ := by decide +kernel
  obtain ⟨⟨before, rest, hsource, hsize, -, hshows, -⟩, -⟩ := ofDot_glimpse herror
  have hne : rest ≠ [] := by
    rintro rfl
    rw [← List.append_nil before, ← hsource] at hsize
    exact absurd hsize (by decide)
  have hmessage : "edge is missing its target" ≠ "subgraphs nested too deeply" := by decide
  obtain ⟨e, he, -⟩ := ofDot_tooDeep "\n\x7d"
  obtain ⟨-, -, hshown⟩ := (ofDot_glimpse he).2 _ rfl
  refine ⟨⟨herror, before, rest, hsource, hsize, ?_⟩, e, he, ?_⟩
  · exact hshows.mpr ⟨hne, fun hdeep => hmessage hdeep.1⟩
  · rw [hshown, not_not]
    decide

/-- A brace is left behind the place, and the text is said to end there. -/
theorem tooDeep_brace_unseen :
    Graph.ofDot (tooDeep ++ "\n\x7d") =
        .error ⟨"subgraphs nested too deeply", 137, 1, 138, "end of input"⟩ ∧
      (tooDeep ++ "\n\x7d").toList = tooDeep.toList ++ ['\n', '\x7d'] ∧
      utf8Size tooDeep.toList = 137 ∧ isBlank '\x7d' = false ∧
      ¬ "end of input".toList <:+: ['\n', '\x7d'] := by
  refine ⟨by decide +kernel, String.toList_append, utf8Size_tooDeep, by decide, ?_⟩
  intro hinfix
  exact absurd hinfix.length_le (by decide)

end Dot

end Tiered
