import Mathlib.Data.List.Basic
import Mathlib.Order.Bounds.Basic
import Tiered.Dot.Reader
import Tiered.Proofs.Dot.Failing

/-!
# The places of errors

* `isGreatest_cutAt`: a text is cut at the last character boundary that an offset allows;
* `walk_place`: going to the line and the column of a place leads to the place;
* `place_lt_of_prefix`: a place further on has a later line, or a later column on the same line;
* `glimpse_bounds`: a glimpse is short, is on one line and says something;
* `isValid_document`: where a text fails to be a document there is a boundary, which is reported.
-/
namespace Tiered.Dot

open String.Pos.Raw (IsValid)

/-! ## Sizes -/

theorem utf8Size_append (s t : List Char) : utf8Size (s ++ t) = utf8Size s + utf8Size t := by
  induction s with
  | nil => rw [List.nil_append, utf8Size, Nat.zero_add]
  | cons c s ih => rw [List.cons_append, utf8Size, utf8Size, ih, Nat.add_assoc]

theorem utf8Size_pos {s : List Char} (h : s ≠ []) : 0 < utf8Size s := by
  cases s with
  | nil => exact absurd rfl h
  | cons c s =>
    have hc := c.utf8Size_pos
    rw [utf8Size]
    omega

theorem utf8ByteSize_ofList (s : List Char) : (String.ofList s).utf8ByteSize = utf8Size s := by
  induction s with
  | nil => rfl
  | cons c s ih =>
    have happend : String.ofList (c :: s) = String.singleton c ++ String.ofList s := by
      rw [String.singleton_eq_ofList, ← String.ofList_append]
      rfl
    rw [happend, String.utf8ByteSize_append, String.utf8ByteSize_singleton, ih, utf8Size]

theorem utf8Size_toList (s : String) : utf8Size s.toList = s.utf8ByteSize := by
  rw [← utf8ByteSize_ofList, String.ofList_toList]

/-- The boundaries of the characters of a text are the sizes of what can stand before one. -/
theorem isValid_iff {s : String} {n : Nat} :
    IsValid s ⟨n⟩ ↔ ∃ before behind, s.toList = before ++ behind ∧ utf8Size before = n := by
  rw [String.Pos.Raw.isValid_iff_exists_append]
  constructor
  · rintro ⟨t, u, rfl, hsize⟩
    refine ⟨t.toList, u.toList, String.toList_append, ?_⟩
    rw [utf8Size_toList]
    exact (congrArg String.Pos.Raw.byteIdx hsize).symm
  · rintro ⟨before, behind, hs, rfl⟩
    refine ⟨String.ofList before, String.ofList behind, ?_, ?_⟩
    · rw [← String.ofList_append, ← hs, String.ofList_toList]
    · rw [← utf8ByteSize_ofList]
      rfl

/-! ## Cutting at a boundary -/

theorem cutAt_append (offset : Nat) (s : List Char) :
    (cutAt offset s).1 ++ (cutAt offset s).2 = s := by
  induction s generalizing offset with
  | nil => rfl
  | cons c s ih =>
    rw [cutAt]
    split
    · exact congrArg (c :: ·) (ih _)
    · rfl

theorem utf8Size_cutAt_le (offset : Nat) (s : List Char) :
    utf8Size (cutAt offset s).1 ≤ offset := by
  induction s generalizing offset with
  | nil => exact Nat.zero_le _
  | cons c s ih =>
    rw [cutAt]
    split
    · next hc =>
      have hrest := ih (offset - c.utf8Size)
      simp only [utf8Size]
      omega
    · exact Nat.zero_le _

/-- Nothing longer that is small enough stands before a boundary. -/
theorem utf8Size_le_cutAt {offset : Nat} {before behind : List Char}
    (h : utf8Size before ≤ offset) :
    utf8Size before ≤ utf8Size (cutAt offset (before ++ behind)).1 := by
  induction before generalizing offset with
  | nil => exact Nat.zero_le _
  | cons c before ih =>
    rw [utf8Size] at h
    have hc : c.utf8Size ≤ offset := by omega
    have hrest : utf8Size before ≤ offset - c.utf8Size := by omega
    rw [List.cons_append, cutAt, if_pos hc]
    simp only [utf8Size]
    have := ih hrest
    omega

theorem isGreatest_cutAt (source : String) (offset : Nat) :
    IsGreatest {n | IsValid source ⟨n⟩ ∧ n ≤ min offset source.utf8ByteSize}
      (utf8Size (cutAt offset source.toList).1) := by
  have happend := cutAt_append offset source.toList
  constructor
  · have hsize := congrArg utf8Size happend
    rw [utf8Size_append, utf8Size_toList] at hsize
    have hle := utf8Size_cutAt_le offset source.toList
    exact ⟨isValid_iff.mpr ⟨_, _, happend.symm, rfl⟩, by omega⟩
  · rintro n ⟨hvalid, hn⟩
    obtain ⟨before, behind, hs, rfl⟩ := isValid_iff.mp hvalid
    rw [hs]
    exact utf8Size_le_cutAt (by omega)

theorem cutAt_utf8Size (before behind : List Char) :
    cutAt (utf8Size before) (before ++ behind) = (before, behind) := by
  induction before with
  | nil =>
    cases behind with
    | nil => rfl
    | cons c behind =>
      have hc := c.utf8Size_pos
      rw [List.nil_append, cutAt, if_neg (by simp only [utf8Size]; omega)]
  | cons c before ih =>
    rw [List.cons_append, cutAt, if_pos (by simp only [utf8Size]; omega)]
    have hsize : utf8Size (c :: before) - c.utf8Size = utf8Size before := by
      simp only [utf8Size]
      omega
    rw [hsize, ih]

/-! ## Lines and columns -/

/-- How many characters stand behind the last line break. -/
def onLine (before : List Char) : Nat := (before.reverse.takeWhile (· ≠ '\n')).length

/-- How many line breaks stand before a place, and how many characters behind the last of them. -/
def place (before : List Char) : Nat × Nat := (before.count '\n', onLine before)

/-- Goes past as many line breaks and then as many characters as given, and counts the bytes. -/
def walk : Nat → Nat → List Char → Nat
  | 0, characters, s => utf8Size (s.take characters)
  | _ + 1, _, [] => 0
  | breaks + 1, characters, c :: s =>
    c.utf8Size + walk (if c = '\n' then breaks else breaks + 1) characters s

/-- A text is cut behind its last line break. -/
structure LastLine (before front line : List Char) : Prop where
  eq : before = front ++ line
  ends : front = [] ∨ front.getLast? = some '\n'
  oneLine : '\n' ∉ line

theorem exists_lastLine (before : List Char) : ∃ front line, LastLine before front line := by
  induction before with
  | nil => exact ⟨[], [], rfl, .inl rfl, List.not_mem_nil⟩
  | cons c before ih =>
    obtain ⟨front, line, rfl, hfront, hline⟩ := ih
    obtain rfl | hfront := hfront
    · by_cases hc : c = '\n'
      · exact ⟨['\n'], line, by rw [hc]; rfl, .inr rfl, hline⟩
      · exact ⟨[], c :: line, rfl, .inl rfl, by simp [Ne.symm hc, hline]⟩
    · refine ⟨c :: front, line, rfl, .inr ?_, hline⟩
      rw [List.getLast?_cons, hfront]
      rfl

theorem LastLine.onLine {before front line : List Char} (h : LastLine before front line) :
    onLine before = line.length := by
  have hline : ∀ c ∈ line.reverse, decide (c ≠ '\n') = true := by
    intro c hc
    simp only [ne_eq, decide_eq_true_eq]
    rintro rfl
    exact h.oneLine (List.mem_reverse.mp hc)
  have hfront : front.reverse.takeWhile (· ≠ '\n') = [] := by
    obtain rfl | hlast := h.ends
    · rfl
    · rw [← List.head?_reverse] at hlast
      obtain ⟨rest, hrest⟩ := List.head?_eq_some_iff.mp hlast
      rw [hrest]
      rfl
  rw [Dot.onLine, h.eq, List.reverse_append, List.takeWhile_append_of_pos hline, hfront,
    List.append_nil, List.length_reverse]

theorem LastLine.count {before front line : List Char} (h : LastLine before front line) :
    before.count '\n' = front.count '\n' := by
  rw [h.eq, List.count_append, List.count_eq_zero_of_not_mem h.oneLine, Nat.add_zero]

theorem walk_front {front : List Char} (h : front = [] ∨ front.getLast? = some '\n')
    (characters : Nat) (s : List Char) :
    walk (front.count '\n') characters (front ++ s) =
      utf8Size front + utf8Size (s.take characters) := by
  induction front with
  | nil => simp [walk, utf8Size]
  | cons c front ih =>
    have hrest : front = [] ∨ front.getLast? = some '\n' := by
      cases front with
      | nil => exact .inl rfl
      | cons d front => exact h.imp_left (by simp)
    by_cases hc : c = '\n'
    · subst hc
      rw [List.count_cons_self, List.cons_append, walk, if_pos rfl, ih hrest, utf8Size,
        Nat.add_assoc]
    · have hmem : '\n' ∈ front := by
        obtain hnil | hlast := h
        · cases hnil
        · exact (List.mem_cons.mp (List.mem_of_getLast? hlast)).resolve_left (Ne.symm hc)
      obtain ⟨n, hn⟩ := Nat.exists_eq_succ_of_ne_zero (List.count_pos_iff.mpr hmem).ne'
      have hwalk := ih hrest
      rw [hn] at hwalk
      rw [List.count_cons_of_ne hc, hn, List.cons_append, walk, if_neg hc, hwalk, utf8Size,
        Nat.add_assoc]

/-- Going to the line and the column of a place leads there. -/
theorem walk_place (before behind : List Char) :
    walk (before.count '\n') (onLine before) (before ++ behind) = utf8Size before := by
  obtain ⟨front, line, h⟩ := exists_lastLine before
  rw [h.onLine, h.count, h.eq, List.append_assoc, walk_front h.ends, List.take_left,
    utf8Size_append]

/-- One character more is on the next line or in the next column. -/
theorem place_concat (before : List Char) (c : Char) :
    place (before ++ [c]) =
      if c = '\n' then ((place before).1 + 1, 0) else ((place before).1, (place before).2 + 1) := by
  obtain ⟨front, line, h⟩ := exists_lastLine before
  by_cases hc : c = '\n'
  · have hnext : LastLine (before ++ [c]) (before ++ [c]) [] :=
      ⟨by simp, .inr (by simp [hc]), List.not_mem_nil⟩
    rw [if_pos hc, place, hnext.onLine]
    simp [place, hc]
  · have hnext : LastLine (before ++ [c]) front (line ++ [c]) :=
      ⟨by simp [h.eq], h.ends, by simp [h.oneLine, Ne.symm hc]⟩
    rw [if_neg hc, place, hnext.onLine, hnext.count]
    simp [place, h.onLine, h.count]

/-- The place is later if there is more before it: on a later line, or further on in the line. -/
theorem place_lt_append (before : List Char) {more : List Char} (h : more ≠ []) :
    (place before).1 < (place (before ++ more)).1 ∨
      (place before).1 = (place (before ++ more)).1 ∧
        (place before).2 < (place (before ++ more)).2 := by
  induction more generalizing before with
  | nil => exact absurd rfl h
  | cons c more ih =>
    have hstep := place_concat before c
    by_cases hmore : more = []
    · subst hmore
      rw [hstep]
      split <;> simp
    · have hrest := ih (before ++ [c]) hmore
      rw [List.append_assoc, List.singleton_append, hstep] at hrest
      split at hrest <;> omega

/-- Of two places of a text, the one with fewer bytes before it has the earlier line and column. -/
theorem place_lt_iff {s before behind before' behind' : List Char} (h : s = before ++ behind)
    (h' : s = before' ++ behind') :
    utf8Size before < utf8Size before' ↔ (place before).1 < (place before').1 ∨
      (place before).1 = (place before').1 ∧ (place before).2 < (place before').2 := by
  obtain ⟨more, hmore⟩ | ⟨more, hmore⟩ :=
    List.prefix_or_prefix_of_prefix ⟨behind, h.symm⟩ ⟨behind', h'.symm⟩
  · subst hmore
    by_cases hnil : more = []
    · simp [hnil]
    · have hplace := place_lt_append before hnil
      have hsize := utf8Size_pos hnil
      rw [utf8Size_append]
      exact ⟨fun _ => hplace, fun _ => by omega⟩
  · subst hmore
    by_cases hnil : more = []
    · simp [hnil]
    · have hplace := place_lt_append before' hnil
      rw [utf8Size_append]
      constructor <;> intro <;> omega

/-! ## Glimpses -/

theorem mem_of_mem_strip {s : List Char} {c : Char} (h : c ∈ Text.strip s) : c ∈ s := by
  have hdrop : ∀ {c : Char} {l : List Char}, c ∈ l.dropWhile Text.isBlank → c ∈ l :=
    fun h => (List.dropWhile_sublist _).mem h
  exact hdrop (List.mem_reverse.mp (hdrop (List.mem_reverse.mp h)))

/-- A glimpse says something, in at most 43 characters on one line. -/
theorem glimpse_bounds (s : List Char) :
    glimpse s ≠ "" ∧ (glimpse s).length ≤ 43 ∧ '\n' ∉ (glimpse s).toList := by
  have hline : '\n' ∉ Text.strip (s.takeWhile (· ≠ '\n')) :=
    fun h => lineFeed_not_mem_takeWhile s (mem_of_mem_strip h)
  unfold glimpse
  generalize Text.strip (s.takeWhile (· ≠ '\n')) = line at hline
  split
  · exact ⟨by decide, by decide, by decide⟩
  · next hne =>
    split
    · have hcut : '\n' ∉ line.take glimpseLength := fun h => hline (List.mem_of_mem_take h)
      have hlength : (line.take glimpseLength).length ≤ glimpseLength := List.length_take_le ..
      rw [String.length_append, String.length_ofList]
      refine ⟨?_, Nat.add_le_add_right hlength 3, ?_⟩
      · intro hempty
        have hsize := congrArg String.length hempty
        rw [String.length_append] at hsize
        exact absurd (Nat.eq_zero_of_add_eq_zero_left hsize) (by decide)
      · simpa using hcut
    · next hlength =>
      rw [String.length_ofList, String.toList_ofList]
      refine ⟨fun hempty => hne ?_, ?_, hline⟩
      · exact String.ofList_inj.mp hempty
      · simp only [glimpseLength] at hlength
        omega

/-! ## Errors -/

/-- Where a text fails to be a document there is a boundary, and the error is reported there. -/
theorem ofDot_of_error {source : String} {f : Failure} (h : document source.toList = .error f) :
    ∃ before, source.toList = before ++ f.rest ∧
      Graph.ofDot source = .error (.locate source (utf8Size before) f.fault.message) ∧
      (SyntaxError.locate source (utf8Size before) f.fault.message).offset = utf8Size before := by
  obtain ⟨us, hus⟩ := document_fails h
  obtain ⟨before, hbefore, -⟩ := hus.consumes.exists_append
  refine ⟨before, hbefore, ?_, ?_⟩
  · have hsize := congrArg utf8Size hbefore
    rw [utf8Size_append] at hsize
    have hoffset : utf8Size source.toList - utf8Size f.rest = utf8Size before := by omega
    unfold Graph.ofDot
    rw [h]
    simp only [hoffset]
  · rw [SyntaxError.locate, hbefore, cutAt_utf8Size]

/-- The error that is found in a text says what is wrong, where it is, and what is left there. -/
theorem located {source : String} {f : Failure} (h : document source.toList = .error f) :
    ∃ before e, source.toList = before ++ f.rest ∧ Graph.ofDot source = .error e ∧
      e.message = f.fault.message ∧ e.offset = utf8Size before ∧ e.snippet = glimpse f.rest := by
  obtain ⟨before, hbefore, hlocate, hoffset⟩ := ofDot_of_error h
  refine ⟨before, _, hbefore, hlocate, rfl, hoffset, ?_⟩
  rw [SyntaxError.locate, hbefore, cutAt_utf8Size]

theorem document_of_ofDot {source : String} {e : SyntaxError} (h : Graph.ofDot source = .error e) :
    ∃ f, document source.toList = .error f := by
  unfold Graph.ofDot at h
  split at h
  · cases h
  · next f hf => exact ⟨f, hf⟩

/-- **Places of errors are exact.** Of any offset into any text, the last character boundary that
is not behind it is reported. The line and the column count the line breaks before this boundary
and the characters behind the last of them, lead back to it, and grow with it. The glimpse says
something, and is short and on one line. The offset that is found in a text that is no DOT text is
a boundary already. -/
theorem locate_exact :
    (∀ (source : String) (offset : Nat) (message : String),
      let e := SyntaxError.locate source offset message
      IsGreatest {n | IsValid source ⟨n⟩ ∧ n ≤ min offset source.utf8ByteSize} e.offset ∧
      (∃ before behind front line, source.toList = before ++ behind ∧
        utf8Size before = e.offset ∧ LastLine before front line ∧
        e.line = before.count '\n' + 1 ∧ e.column = line.length + 1) ∧
      walk (e.line - 1) (e.column - 1) source.toList = e.offset ∧
      (∀ (offset' : Nat) (message' : String),
        let e' := SyntaxError.locate source offset' message'
        e.offset < e'.offset ↔ e.line < e'.line ∨ e.line = e'.line ∧ e.column < e'.column) ∧
      e.snippet ≠ "" ∧ e.snippet.length ≤ 43 ∧ '\n' ∉ e.snippet.toList) ∧
    ∀ (source : String) (e : SyntaxError), Graph.ofDot source = .error e →
      ∃ f, document source.toList = .error f ∧
        let offset := utf8Size source.toList - utf8Size f.rest
        e = .locate source offset f.fault.message ∧
          IsValid source ⟨offset⟩ ∧ offset ≤ source.utf8ByteSize ∧ e.offset = offset := by
  constructor
  · intro source offset message e
    have hsource := cutAt_append offset source.toList
    obtain ⟨front, line, hline⟩ := exists_lastLine (cutAt offset source.toList).1
    refine ⟨isGreatest_cutAt source offset, ?_, ?_, ?_, glimpse_bounds _⟩
    · exact ⟨_, _, front, line, hsource.symm, rfl, hline, rfl, congrArg (· + 1) hline.onLine⟩
    · have hwalk := walk_place (cutAt offset source.toList).1 (cutAt offset source.toList).2
      rwa [hsource] at hwalk
    · intro offset' message' e'
      have hplace := place_lt_iff hsource.symm (cutAt_append offset' source.toList).symm
      simp only [e, e', SyntaxError.locate, place, onLine, Nat.add_lt_add_iff_right,
        Nat.add_right_cancel_iff] at hplace ⊢
      exact hplace
  · intro source e h
    obtain ⟨f, hf⟩ := document_of_ofDot h
    obtain ⟨before, hbefore, hlocate, hreported⟩ := ofDot_of_error hf
    obtain rfl := Except.error.inj (h.symm.trans hlocate)
    have hsize := congrArg utf8Size hbefore
    rw [utf8Size_append] at hsize
    have hoffset : utf8Size source.toList - utf8Size f.rest = utf8Size before := by omega
    refine ⟨f, hf, ?_⟩
    rw [hoffset]
    refine ⟨rfl, isValid_iff.mpr ⟨before, f.rest, hbefore, rfl⟩, ?_, hreported⟩
    rw [← utf8Size_toList]
    omega

/-- A text whose second line begins with a character of two bytes and ends in an error. -/
def accented : String := "digraph\x7b\né-> ;\x7d"

theorem locate_accented :
    Graph.ofDot accented = .error ⟨"edge is missing its target", 14, 2, 5, ";\x7d"⟩ ∧
      IsValid accented ⟨14⟩ ∧ walk 1 4 accented.toList = 14 ∧
      (SyntaxError.locate accented 10 "").offset = 9 ∧ ¬ IsValid accented ⟨10⟩ := by
  have herror : Graph.ofDot accented =
      .error ⟨"edge is missing its target", 14, 2, 5, ";\x7d"⟩ := by decide +kernel
  have hwithin : (SyntaxError.locate accented 10 "").offset = 9 := by decide +kernel
  obtain ⟨f, -, he, hvalid, -, hoffset⟩ := locate_exact.2 _ _ herror
  obtain ⟨-, -, hwalk, -⟩ := locate_exact.1 accented 14 "edge is missing its target"
  obtain ⟨⟨-, hgreatest⟩, -⟩ := locate_exact.1 accented 10 ""
  refine ⟨herror, ?_, ?_, hwithin, ?_⟩
  · rwa [← hoffset] at hvalid
  · exact hwalk
  · intro hten
    have hle := hgreatest ⟨hten, by decide +kernel⟩
    rw [hwithin] at hle
    omega

end Tiered.Dot
