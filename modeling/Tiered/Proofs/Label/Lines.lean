import Tiered.Label

/-!
# The lines of labels

* `encode`: a list of lines as a label, with each backslash doubled and a break of any spelling
  between two lines, which `split_encode` reads back;
* `breaks`, `lastText`: the breaks of a label and the text behind the last of them, told by what
  stands before each character, with no reading from left to right;
* `length_lines`: by these, how many lines there are.
-/

namespace Tiered.Label

/-! ## Lines as a label -/

/-- What ends a line. -/
inductive Break where
  | centred
  | left
  | right
  | feed
deriving DecidableEq, Repr

def Break.spelling : Break → List Char
  | centred => ['\\', 'n']
  | left => ['\\', 'l']
  | right => ['\\', 'r']
  | feed => ['\n']

/-- Doubles each backslash. -/
def escape (line : List Char) : List Char :=
  line.flatMap fun c => if c = '\\' then ['\\', '\\'] else [c]

/-- Each line escaped, with the break before it. -/
def encode (first : List Char) : List (Break × List Char) → List Char
  | [] => escape first
  | (b, line) :: rest => escape first ++ (b.spelling ++ encode line rest)

/-- A text that can stand on one line. -/
def OneLine (line : List Char) : Prop := '\n' ∉ line ∧ '\r' ∉ line

instance (line : List Char) : Decidable (OneLine line) := inferInstanceAs (Decidable (_ ∧ _))

theorem OneLine.cons {c : Char} {line : List Char} (hn : c ≠ '\n') (hr : c ≠ '\r')
    (h : OneLine line) : OneLine (c :: line) :=
  ⟨fun hc => (List.mem_cons.mp hc).elim (hn ·.symm) h.1,
    fun hc => (List.mem_cons.mp hc).elim (hr ·.symm) h.2⟩

theorem OneLine.of_cons {c : Char} {line : List Char} (h : OneLine (c :: line)) :
    (c ≠ '\n' ∧ c ≠ '\r') ∧ OneLine line :=
  ⟨⟨fun hc => h.1 (hc ▸ List.mem_cons_self), fun hc => h.2 (hc ▸ List.mem_cons_self)⟩,
    fun hc => h.1 (List.mem_cons_of_mem _ hc), fun hc => h.2 (List.mem_cons_of_mem _ hc)⟩

theorem OneLine.reverse {line : List Char} (h : OneLine line) : OneLine line.reverse :=
  ⟨fun hc => h.1 (List.mem_reverse.mp hc), fun hc => h.2 (List.mem_reverse.mp hc)⟩

/-! ## Reading them back -/

theorem lines_cons {c : Char} (hs : c ≠ '\\') (hn : c ≠ '\n') (hr : c ≠ '\r')
    (current rest : List Char) : lines current (c :: rest) = lines (c :: current) rest := by
  rw [lines]
  all_goals intros; simp_all

theorem lines_spelling (b : Break) (current rest : List Char) :
    lines current (b.spelling ++ rest) = current.reverse :: lines [] rest := by
  cases b <;> rfl

theorem lines_escape {line : List Char} (h : OneLine line) (current rest : List Char) :
    lines current (escape line ++ rest) = lines (line.reverse ++ current) rest := by
  induction line generalizing current with
  | nil => rfl
  | cons c line ih =>
    obtain ⟨⟨hn, hr⟩, hline⟩ := h.of_cons
    rw [List.reverse_cons, List.append_assoc, List.singleton_append, ← ih hline (c :: current)]
    by_cases hc : c = '\\'
    · subst hc
      rfl
    · rw [escape, List.flatMap_cons, if_neg hc, List.singleton_append, List.cons_append,
        lines_cons hc hn hr]
      rfl

theorem lines_encode {first : List Char} {rest : List (Break × List Char)}
    (h : ∀ line ∈ first :: rest.map Prod.snd, OneLine line)
    (hlast : (first :: rest.map Prod.snd).getLast? ≠ some []) :
    lines [] (encode first rest) = first :: rest.map Prod.snd := by
  induction rest generalizing first with
  | nil =>
    have hone : OneLine first := h first List.mem_cons_self
    have hfirst : first ≠ [] := by simpa using hlast
    rw [encode, ← List.append_nil (escape first), lines_escape hone]
    simp [lines, hfirst]
  | cons b rest ih =>
    obtain ⟨b, line⟩ := b
    have hone : OneLine first := h first List.mem_cons_self
    have hrest : lines [] (encode line rest) = line :: rest.map Prod.snd := by
      apply ih fun l hl => h l (List.mem_cons_of_mem _ hl)
      rwa [List.map_cons, List.getLast?_cons_cons] at hlast
    rw [encode, lines_escape hone, lines_spelling, hrest]
    simp

/-- Lines are read back from the label that encodes them. -/
theorem split_encode {first : List Char} {rest : List (Break × List Char)}
    (h : ∀ line ∈ first :: rest.map Prod.snd, OneLine line)
    (hlast : ∀ line ∈ (rest.map Prod.snd).getLast?, line ≠ []) :
    split (String.ofList (encode first rest)) =
      (first :: rest.map Prod.snd).map String.ofList := by
  by_cases hempty : first = [] ∧ rest = []
  · obtain ⟨rfl, rfl⟩ := hempty
    rfl
  · have hne : (first :: rest.map Prod.snd).getLast? ≠ some [] := by
      cases rest with
      | nil => simpa using hempty
      | cons b rest =>
        rw [List.map_cons, List.getLast?_cons_cons]
        exact fun hnil => hlast [] hnil rfl
    rw [split, String.toList_ofList, lines_encode h hne]

/-! ## What stands on a line -/

theorem oneLine_of_mem_lines {current s line : List Char} (hcurrent : OneLine current)
    (h : line ∈ lines current s) : OneLine line := by
  have hnil : OneLine [] := by decide
  fun_induction lines current s with
  | case1 => exact absurd h List.not_mem_nil
  | case2 =>
    rw [List.mem_singleton.mp h]
    exact hcurrent.reverse
  | case3 current rest ih | case4 current rest ih | case5 current rest ih | case6 current rest ih =>
    cases h with
    | head => exact hcurrent.reverse
    | tail _ h => exact ih hnil h
  | case7 current rest ih => exact ih (hcurrent.cons (by decide) (by decide)) h
  | case8 current rest ih => exact ih hcurrent h
  | case9 current c rest _ _ _ hn _ hr ih => exact ih (hcurrent.cons hn hr) h

theorem mem_split {label : String} {line : String} (h : line ∈ split label) :
    line = "" ∨ line.toList ∈ lines [] label.toList := by
  unfold split at h
  split at h
  · exact .inl (List.mem_singleton.mp h)
  · next ls hls =>
    obtain ⟨l, hl, rfl⟩ := List.mem_map.mp h
    rw [String.toList_ofList]
    exact .inr hl

theorem oneLine_of_mem_split {label line : String} (h : line ∈ split label) :
    OneLine line.toList := by
  obtain rfl | hline := mem_split h
  · decide
  · exact oneLine_of_mem_lines (by decide) hline

/-! ## Breaks -/

/-- How many backslashes stand right before, `front` being the text before in reverse. -/
def slashes (front : List Char) : Nat := (front.takeWhile (· = '\\')).length

/-- A line feed is the end of a break, and so is `n`, `l` or `r` if the backslashes before it do not
pair up, which leaves one of them to it. -/
def EndsBreak (front : List Char) (c : Char) : Prop :=
  c = '\n' ∨ (c = 'n' ∨ c = 'l' ∨ c = 'r') ∧ slashes front % 2 = 1

instance (front : List Char) (c : Char) : Decidable (EndsBreak front c) :=
  inferInstanceAs (Decidable (_ ∨ _))

/-- How many breaks end in a text with `front` before it. -/
def breaks (front : List Char) : List Char → Nat
  | [] => 0
  | c :: rest => (if EndsBreak front c then 1 else 0) + breaks (c :: front) rest

/-- What stands behind the last break that ends in a text, and all of the text if there is none. -/
def lastText (front : List Char) : List Char → List Char
  | [] => []
  | c :: rest =>
    if EndsBreak front c ∨ breaks (c :: front) rest ≠ 0 then lastText (c :: front) rest
    else c :: rest

/-- What a text without breaks stands for. -/
def unescape : List Char → List Char
  | '\\' :: '\\' :: rest => '\\' :: unescape rest
  | '\r' :: rest => unescape rest
  | c :: rest => c :: unescape rest
  | [] => []

theorem slashes_backslash (front : List Char) : slashes ('\\' :: front) = slashes front + 1 := by
  simp [slashes]

theorem slashes_cons {c : Char} (hc : c ≠ '\\') (front : List Char) : slashes (c :: front) = 0 := by
  simp [slashes, hc]

theorem lastText_of_breaks_eq_zero {front s : List Char} (h : breaks front s = 0) :
    lastText front s = s := by
  cases s with
  | nil => rfl
  | cons c rest =>
    have hboth : ¬ (EndsBreak front c ∨ breaks (c :: front) rest ≠ 0) := by
      rw [breaks] at h
      split at h <;> simp_all
    rw [lastText, if_neg hboth]

theorem unescape_cons_ne_nil {c : Char} (hc : c ≠ '\r') (rest : List Char) :
    unescape (c :: rest) ≠ [] := by
  intro h
  rw [unescape.eq_def] at h
  split at h <;> simp_all

/-! ## How many lines there are -/

/-- How many lines a text makes: one for each break that ends in it, and one more if there is
something behind the last break, or `current` before it and no break at all. -/
def lineCount (current front s : List Char) : Nat :=
  breaks front s +
    if current ≠ [] ∧ breaks front s = 0 ∨ unescape (lastText front s) ≠ [] then 1 else 0

theorem lineCount_of_endsBreak {front : List Char} {c : Char} (h : EndsBreak front c)
    (current rest : List Char) :
    lineCount current front (c :: rest) = lineCount [] (c :: front) rest + 1 := by
  have hbreaks : breaks front (c :: rest) = breaks (c :: front) rest + 1 := by
    rw [breaks, if_pos h, Nat.add_comm]
  have hlast : lastText front (c :: rest) = lastText (c :: front) rest := by
    rw [lastText, if_pos (.inl h)]
  simp only [lineCount, hbreaks, hlast, Nat.succ_ne_zero, and_false, false_or, ne_eq,
    not_true_eq_false, false_and]
  omega

theorem lineCount_of_not_endsBreak {front : List Char} {c : Char} (h : ¬ EndsBreak front c)
    (hr : c ≠ '\r') (current : List Char) {line : List Char} (hline : line ≠ [])
    (rest : List Char) :
    lineCount current front (c :: rest) = lineCount line (c :: front) rest := by
  have hbreaks : breaks front (c :: rest) = breaks (c :: front) rest := by
    rw [breaks, if_neg h, Nat.zero_add]
  unfold lineCount
  rw [hbreaks, lastText]
  by_cases hz : breaks (c :: front) rest = 0
  · simp [h, hz, hline, unescape_cons_ne_nil hr]
  · simp [h, hz]

theorem lineCount_carriageReturn (current front rest : List Char) :
    lineCount current front ('\r' :: rest) = lineCount current ('\r' :: front) rest := by
  have h : ¬ EndsBreak front '\r' := by simp [EndsBreak]
  have hbreaks : breaks front ('\r' :: rest) = breaks ('\r' :: front) rest := by
    rw [breaks, if_neg h, Nat.zero_add]
  unfold lineCount
  rw [hbreaks, lastText]
  by_cases hz : breaks ('\r' :: front) rest = 0
  · simp [h, hz, unescape, lastText_of_breaks_eq_zero hz]
  · simp [h, hz]

/-- What is before leaves no backslash over that what is behind would take. -/
def Settled (front s : List Char) : Prop :=
  slashes front % 2 = 1 → ∀ c ∈ s.head?, c ≠ '\\' ∧ c ≠ 'n' ∧ c ≠ 'l' ∧ c ≠ 'r'

theorem Settled.of_slashes {front : List Char} (h : slashes front % 2 = 0) (s : List Char) :
    Settled front s :=
  fun hodd => by omega

theorem Settled.cons {c : Char} (hc : c ≠ '\\') (front s : List Char) : Settled (c :: front) s :=
  .of_slashes (by rw [slashes_cons hc]) s

theorem Settled.slashes_even {front rest : List Char} (h : Settled front ('\\' :: rest)) :
    slashes front % 2 = 0 := by
  by_cases hodd : slashes front % 2 = 1
  · exact absurd rfl (h hodd '\\' rfl).1
  · omega

theorem not_endsBreak_backslash (front : List Char) : ¬ EndsBreak front '\\' := by
  simp [EndsBreak]

/-- A backslash that is not escaped makes a break of the mark behind it. -/
theorem lineCount_mark {front rest : List Char} {mark : Char}
    (hmark : mark = 'n' ∨ mark = 'l' ∨ mark = 'r') (h : slashes front % 2 = 0)
    (current : List Char) :
    lineCount current front ('\\' :: mark :: rest) =
      lineCount [] (mark :: '\\' :: front) rest + 1 := by
  have hends : EndsBreak ('\\' :: front) mark := by
    refine .inr ⟨hmark, ?_⟩
    rw [slashes_backslash]
    omega
  rw [lineCount_of_not_endsBreak (not_endsBreak_backslash front) (by decide) current
    (List.cons_ne_nil '\\' []), lineCount_of_endsBreak hends]

/-- There are as many lines as breaks and the last text make. -/
theorem length_lines {front s : List Char} (h : Settled front s) (current : List Char) :
    (lines current s).length = lineCount current front s := by
  fun_induction lines current s generalizing front with
  | case1 current hcurrent | case2 current hcurrent =>
    simp_all [lineCount, breaks, lastText, unescape]
  | case3 current rest ih | case4 current rest ih | case5 current rest ih =>
    rw [List.length_cons, lineCount_mark (by decide) h.slashes_even, Nat.add_right_cancel_iff]
    exact ih (.cons (by decide) _ rest)
  | case6 current rest ih =>
    rw [List.length_cons, lineCount_of_endsBreak (.inl rfl), Nat.add_right_cancel_iff]
    exact ih (.cons (by decide) front rest)
  | case7 current rest ih =>
    have hpair : slashes ('\\' :: '\\' :: front) % 2 = 0 := by
      have heven := h.slashes_even
      rw [slashes_backslash, slashes_backslash]
      omega
    rw [ih (.of_slashes hpair rest),
      lineCount_of_not_endsBreak (not_endsBreak_backslash _) (by decide) current
        (List.cons_ne_nil '\\' []),
      lineCount_of_not_endsBreak (not_endsBreak_backslash _) (by decide) _
        (List.cons_ne_nil '\\' current)]
  | case8 current rest ih =>
    rw [lineCount_carriageReturn]
    exact ih (.cons (by decide) front rest)
  | case9 current c rest hN hL hR hn hS hr ih =>
    have hends : ¬ EndsBreak front c := by
      rintro (hfeed | ⟨hmark, hodd⟩)
      · exact hn hfeed
      · have hfree := h hodd c rfl
        simp_all
    rw [lineCount_of_not_endsBreak hends hr current (List.cons_ne_nil c current)]
    apply ih
    by_cases hc : c = '\\'
    · -- the backslash stands for itself, as nothing behind it would take it
      rintro - d hd
      obtain ⟨tail, rfl⟩ := List.head?_eq_some_iff.mp hd
      simp_all
    · exact .cons hc front rest

/-! ## Labels -/

/-- **Labels are cut at their breaks and nowhere else.** A list of lines, the last of which is not
empty unless it is the only one, is read back from any label that encodes it. No line of any label
holds a line break, and there are as many lines as breaks in the label, and one more if it has no
break or if the text behind the last one stands for something. -/
theorem split_decodes :
    (∀ (first : List Char) (rest : List (Break × List Char)),
      (∀ line ∈ first :: rest.map Prod.snd, OneLine line) →
      (∀ line ∈ (rest.map Prod.snd).getLast?, line ≠ []) →
      split (String.ofList (encode first rest)) =
        (first :: rest.map Prod.snd).map String.ofList) ∧
    ∀ label : String,
      (∀ line ∈ split label, OneLine line.toList) ∧
      (split label).length = breaks [] label.toList +
        if breaks [] label.toList = 0 ∨ unescape (lastText [] label.toList) ≠ [] then 1 else 0 := by
  refine ⟨fun first rest => split_encode, fun label => ⟨fun line => oneLine_of_mem_split, ?_⟩⟩
  have hlength : (lines [] label.toList).length = lineCount [] [] label.toList :=
    length_lines (.of_slashes rfl _) []
  simp only [lineCount, ne_eq, not_true_eq_false, false_and, false_or] at hlength
  unfold split
  split
  · next hnil =>
    rw [hnil, List.length_nil] at hlength
    have hzero : breaks [] label.toList = 0 := by omega
    simp_all
  · next hcons =>
    have hpos : 0 < (lines [] label.toList).length := List.length_pos_iff.mpr hcons
    rw [List.length_map, hlength, Nat.add_left_cancel_iff]
    by_cases htext : unescape (lastText [] label.toList) = []
    · have hbreaks : breaks [] label.toList ≠ 0 := by
        rw [hlength, if_neg (not_not_intro htext)] at hpos
        omega
      simp [htext, hbreaks]
    · simp [htext]

/-- Lines with backslashes and an empty one among them, with breaks of all spellings. -/
theorem split_decodes_mixed :
    encode ['n', '\\'] [(.feed, ['n']), (.left, []), (.right, ['\\', '\\']), (.centred, ['z'])] =
      "n\\\\\nn\\l\\r\\\\\\\\\\nz".toList ∧
    split "n\\\\\nn\\l\\r\\\\\\\\\\nz" = ["n\\", "n", "", "\\\\", "z"] ∧
    (split "n\\\\\nn\\l\\r\\\\\\\\\\nz").length = 4 + 1 := by
  refine ⟨by decide, ?_, (split_decodes.2 _).2⟩
  exact split_decodes.1 ['n', '\\'] [(.feed, ['n']), (.left, []), (.right, ['\\', '\\']),
    (.centred, ['z'])] (by decide) (by decide)

end Tiered.Label
