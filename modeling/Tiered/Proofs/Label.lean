import Tiered.Label
import Tiered.Proofs.Table

/-!
# Marks in labels

Labels have `\N` for the id of the node and `\G` for the name of the graph. Lines are read with
doubled backslashes for escaped ones, and marks are put in without them.

* `expand`: the label as one reading from left to right gives it, doubled backslashes included;
* `substitute_substitute`: marks put in one after the other are put in at once, unless the id makes
  a mark of its own;
* `replaceMarks_eq_expand`, `length_expand_lt`: this is the one reading if no mark in the label is
  escaped, and is not otherwise;
* `label_eq_labelRead`: so a label is read once if neither the label nor the id stands in the way.
-/

namespace Tiered

namespace Label

/-! ## One reading -/

/-- Reads a label from left to right: a doubled backslash is an escaped one and stays, and a mark
becomes what it stands for. -/
def expand (id name : List Char) : List Char → List Char
  | '\\' :: '\\' :: rest => '\\' :: '\\' :: expand id name rest
  | '\\' :: 'N' :: rest => id ++ expand id name rest
  | '\\' :: 'G' :: rest => name ++ expand id name rest
  | c :: rest => c :: expand id name rest
  | [] => []

/-- Puts in what each mark stands for, whatever is before the mark. -/
def replaceMarks (id name : List Char) : List Char → List Char
  | '\\' :: 'N' :: rest => id ++ replaceMarks id name rest
  | '\\' :: 'G' :: rest => name ++ replaceMarks id name rest
  | c :: rest => c :: replaceMarks id name rest
  | [] => []

/-- No mark of the label has an escaped backslash. -/
def MarksBare : List Char → Prop
  | '\\' :: '\\' :: rest => (∀ c ∈ rest.head?, c ≠ 'N' ∧ c ≠ 'G') ∧ MarksBare rest
  | _ :: rest => MarksBare rest
  | [] => True

/-- Between a backslash and a `G`, the id makes no mark of its own. -/
def Inert (id : List Char) : Prop := ¬ ['\\', 'G'] <:+: '\\' :: (id ++ ['G'])

/-! ## One mark after the other -/

theorem substitute_cons {mark c : Char} (hc : c ≠ '\\') (text l : List Char) :
    substitute mark text (c :: l) = c :: substitute mark text l := by
  cases l with
  | nil => rfl
  | cons d l => rw [substitute, if_neg fun h => hc h.1]

theorem substitute_backslash {mark d : Char} (hd : d ≠ mark) (text l : List Char) :
    substitute mark text ('\\' :: d :: l) = '\\' :: substitute mark text (d :: l) := by
  rw [substitute, if_neg fun h => hd h.2]

theorem substitute_mark (mark : Char) (text l : List Char) :
    substitute mark text ('\\' :: mark :: l) = text ++ substitute mark text l := by
  rw [substitute, if_pos ⟨rfl, rfl⟩]

/-- A text with no mark in it, nor half of one at its end, stays. -/
theorem substitute_append {mark : Char} {a : List Char} (h : ¬ ['\\', mark] <:+: a ++ [mark])
    (text b : List Char) :
    substitute mark text (a ++ b) = a ++ substitute mark text b := by
  induction a with
  | nil => rfl
  | cons c a ih =>
    have ha : ¬ ['\\', mark] <:+: a ++ [mark] :=
      fun ha => h (ha.trans (List.suffix_cons ..).isInfix)
    rw [List.cons_append, List.cons_append, ← ih ha]
    by_cases hc : c = '\\'
    · subst hc
      cases a with
      | nil => exact absurd List.infix_rfl h
      | cons d a =>
        refine substitute_backslash (fun hd => h ?_) text (a ++ b)
        rw [hd]
        exact (List.prefix_append ['\\', mark] (a ++ [mark])).isInfix
    · exact substitute_cons hc text (a ++ b)

/-- What comes first stays first if it begins no mark. -/
theorem exists_substitute_cons (text : List Char) {mark d : Char} {l : List Char}
    (h : ¬ (d = '\\' ∧ l.head? = some mark)) :
    ∃ r, substitute mark text (d :: l) = d :: r := by
  cases l with
  | nil => exact ⟨[], rfl⟩
  | cons e l => exact ⟨_, by rw [substitute, if_neg (by simpa using h)]⟩

/-- Marks are put in one after the other as they are at once: an inert id leaves what is before and
behind it as it is. -/
theorem substitute_substitute {id : List Char} (h : Inert id) (name label : List Char) :
    substitute 'G' name (substitute 'N' id label) = replaceMarks id name label := by
  have hid : ¬ ['\\', 'G'] <:+: id ++ ['G'] :=
    fun hid => h (hid.trans (List.suffix_cons ..).isInfix)
  fun_induction replaceMarks id name label with
  | case1 rest ih => rw [substitute_mark, substitute_append hid, ih]
  | case2 rest ih =>
    rw [substitute_backslash (by decide), substitute_cons (c := 'G') (by decide), substitute_mark,
      ih]
  | case3 c rest hN hG ih =>
    rw [← ih]
    by_cases hc : c = '\\'
    · subst hc
      cases rest with
      | nil => rfl
      | cons d l =>
        have hdN : d ≠ 'N' := fun hd => hN l rfl (hd ▸ rfl)
        have hdG : d ≠ 'G' := fun hd => hG l rfl (hd ▸ rfl)
        rw [substitute_backslash hdN]
        by_cases hd : d = '\\' ∧ l.head? = some 'N'
        · obtain ⟨rfl, hl⟩ := hd
          obtain ⟨l, rfl⟩ := List.head?_eq_some_iff.mp hl
          rw [substitute_mark, ← List.cons_append, substitute_append (a := '\\' :: id) h,
            substitute_append hid,
            List.cons_append]
        · obtain ⟨r, hr⟩ := exists_substitute_cons id hd
          rw [hr, substitute_backslash hdG]
    · rw [substitute_cons hc, substitute_cons hc]
  | case4 => rfl

/-! ## Escaped marks -/

theorem replaceMarks_cons {c : Char} {rest : List Char} (hc : c ≠ '\\') (id name : List Char) :
    replaceMarks id name (c :: rest) = c :: replaceMarks id name rest := by
  rw [replaceMarks]
  all_goals exact fun _ h => absurd h hc

theorem replaceMarks_backslash {rest : List Char} (h : ∀ c ∈ rest.head?, c ≠ 'N' ∧ c ≠ 'G')
    (id name : List Char) :
    replaceMarks id name ('\\' :: rest) = '\\' :: replaceMarks id name rest := by
  rw [replaceMarks]
  · rintro l - rfl
    exact (h 'N' rfl).1 rfl
  · rintro l - rfl
    exact (h 'G' rfl).2 rfl

theorem marksBare_cons {c : Char} {rest : List Char}
    (h : ∀ l, c = '\\' → rest = '\\' :: l → False) :
    MarksBare (c :: rest) ↔ MarksBare rest := by
  rw [MarksBare]
  exact h

theorem marksBare_mark {mark : Char} (hm : mark ≠ '\\') {rest : List Char} :
    MarksBare ('\\' :: mark :: rest) ↔ MarksBare rest := by
  rw [marksBare_cons (by simp [hm]), marksBare_cons fun _ h => absurd h hm]

theorem replaceMarks_eq_expand (id name : List Char) {label : List Char} (h : MarksBare label) :
    replaceMarks id name label = expand id name label := by
  fun_induction expand id name label with
  | case1 rest ih =>
    obtain ⟨hrest, h⟩ : (∀ c ∈ rest.head?, c ≠ 'N' ∧ c ≠ 'G') ∧ MarksBare rest := h
    rw [replaceMarks_backslash (by simp), replaceMarks_backslash hrest, ih h]
  | case2 rest ih => rw [replaceMarks, ih ((marksBare_mark (by decide)).mp h)]
  | case3 rest ih => rw [replaceMarks, ih ((marksBare_mark (by decide)).mp h)]
  | case4 c rest hpair hN hG ih =>
    rw [replaceMarks, ih ((marksBare_cons hpair).mp h)] <;> assumption
  | case5 => rfl

section Longer

variable {id name : List Char} (hid : 2 < id.length) (hname : 2 < name.length)
include hid hname

/-- A mark that stands for a long text makes a label longer. -/
theorem length_replaceMarks_mark {rest : List Char}
    (h : ¬ ∀ c ∈ rest.head?, c ≠ 'N' ∧ c ≠ 'G') :
    (replaceMarks id name rest).length + 1 < (replaceMarks id name ('\\' :: rest)).length := by
  cases rest with
  | nil => exact absurd (by simp) h
  | cons c rest =>
    obtain rfl | rfl : c = 'N' ∨ c = 'G' := by
      simp only [List.head?_cons, Option.mem_def, Option.some.injEq, forall_eq'] at h
      grind
    all_goals
      rw [replaceMarks_cons (by decide), replaceMarks, List.length_cons, List.length_append]
      omega

theorem length_replaceMarks_backslash (rest : List Char) :
    (replaceMarks id name rest).length + 1 ≤ (replaceMarks id name ('\\' :: rest)).length := by
  by_cases h : ∀ c ∈ rest.head?, c ≠ 'N' ∧ c ≠ 'G'
  · exact Nat.le_of_eq (congrArg List.length (replaceMarks_backslash h id name)).symm
  · exact Nat.le_of_lt (length_replaceMarks_mark hid hname h)

theorem length_expand_le (label : List Char) :
    (expand id name label).length ≤ (replaceMarks id name label).length := by
  fun_induction expand id name label with
  | case1 rest ih =>
    have hrest := length_replaceMarks_backslash hid hname rest
    rw [replaceMarks_backslash (by simp)]
    simp only [List.length_cons]
    omega
  | case2 rest ih =>
    rw [replaceMarks]
    simpa only [List.length_append, Nat.add_le_add_iff_left] using ih
  | case3 rest ih =>
    rw [replaceMarks]
    simpa only [List.length_append, Nat.add_le_add_iff_left] using ih
  | case4 c rest hpair hN hG ih =>
    rw [replaceMarks] <;> try assumption
    simpa only [List.length_cons, Nat.add_le_add_iff_right] using ih
  | case5 => exact Nat.le_refl _

/-- A label gets longer than it reads if one of its marks is escaped. -/
theorem length_expand_lt {label : List Char} (h : ¬ MarksBare label) :
    (expand id name label).length < (replaceMarks id name label).length := by
  fun_induction expand id name label with
  | case1 rest ih =>
    have hrest := length_replaceMarks_backslash hid hname rest
    have hle := length_expand_le hid hname rest
    rw [replaceMarks_backslash (by simp)]
    simp only [List.length_cons]
    by_cases hhead : ∀ c ∈ rest.head?, c ≠ 'N' ∧ c ≠ 'G'
    · have := ih fun hbare => h ⟨hhead, hbare⟩
      omega
    · have := length_replaceMarks_mark hid hname hhead
      omega
  | case2 rest ih =>
    have := ih fun hbare => h ((marksBare_mark (by decide)).mpr hbare)
    rw [replaceMarks]
    simpa only [List.length_append, Nat.add_lt_add_iff_left] using this
  | case3 rest ih =>
    have := ih fun hbare => h ((marksBare_mark (by decide)).mpr hbare)
    rw [replaceMarks]
    simpa only [List.length_append, Nat.add_lt_add_iff_left] using this
  | case4 c rest hpair hN hG ih =>
    have := ih fun hbare => h ((marksBare_cons hpair).mpr hbare)
    rw [replaceMarks] <;> try assumption
    simpa only [List.length_cons, Nat.add_lt_add_iff_right] using this
  | case5 => exact absurd trivial h

end Longer

/-! ## Ids that make marks -/

theorem length_substitute_nil_le (mark : Char) (l : List Char) :
    (substitute mark [] l).length ≤ l.length := by
  fun_induction substitute mark [] l with
  | case1 => exact Nat.le_refl _
  | case2 => exact Nat.le_refl _
  | case3 c d rest h ih =>
    simp only [List.nil_append, List.length_cons]
    omega
  | case4 c d rest h ih => exact Nat.succ_le_succ ih

/-- Where a mark stands for nothing, a text with that mark gets shorter. -/
theorem length_substitute_nil_lt {mark : Char} {l : List Char} (h : ['\\', mark] <:+: l) :
    (substitute mark [] l).length < l.length := by
  fun_induction substitute mark [] l with
  | case1 => simp at h
  | case2 c => exact absurd h.length_le (by simp)
  | case3 c d rest h ih =>
    have := length_substitute_nil_le mark rest
    simp only [List.nil_append, List.length_cons]
    omega
  | case4 c d rest hne ih =>
    rcases List.infix_cons_iff.mp h with h | h
    · simp only [List.cons_prefix_cons, List.nil_prefix, and_true] at h
      exact absurd ⟨h.1.symm, h.2.symm⟩ hne
    · exact Nat.succ_lt_succ (ih h)

/-- An id that makes a mark is not read as it stands. -/
theorem inert_of_expand {id : List Char}
    (h : substitute 'G' [] (substitute 'N' id ['\\', '\\', '\\', 'N', 'G']) =
      expand id [] ['\\', '\\', '\\', 'N', 'G']) : Inert id := by
  have hput : substitute 'N' id ['\\', '\\', '\\', 'N', 'G'] =
      '\\' :: '\\' :: (id ++ ['G']) := by simp [substitute]
  have hread : expand id [] ['\\', '\\', '\\', 'N', 'G'] =
      '\\' :: '\\' :: (id ++ ['G']) := by simp [expand]
  rw [hput, hread] at h
  intro hmark
  have hlt := length_substitute_nil_lt (hmark.trans (List.suffix_cons '\\' _).isInfix)
  exact Nat.ne_of_lt hlt (congrArg List.length h)

end Label

namespace Graph

open Label

/-- The label of a node that has the text `label` for it, read once. -/
def labelRead (g : Graph) (id label : String) : String :=
  String.ofList (expand id.toList (g.name.getD "").toList label.toList)

theorem label_eq {g : Graph} {id label : String} (h : g.nodeAttr? id "label" = some label) :
    g.label id = String.ofList (substitute 'G' (g.name.getD "").toList
      (substitute 'N' id.toList label.toList)) := by
  unfold Graph.label
  rw [h]

theorem label_eq_labelRead {g : Graph} {id label : String}
    (h : g.nodeAttr? id "label" = some label) (hid : Inert id.toList)
    (hlabel : MarksBare label.toList) : g.label id = g.labelRead id label := by
  rw [label_eq h, substitute_substitute hid, replaceMarks_eq_expand _ _ hlabel, labelRead]

/-- A graph in which one node has a label. -/
def labelled (name : Option String) (id label : String) : Graph :=
  { name, nodes := [id], nodeAttrs := .ofList [(id, .ofList [("label", label)])] }

theorem nodeAttr?_labelled (name : Option String) (id label : String) :
    (labelled name id label).nodeAttr? id "label" = some label := by
  simp [labelled, nodeAttr?, Table.ofList, Table.extend, Table.get?_insert]

/-- **Labels are read once** if and only if neither the label nor the id stands in the way: of all
labels, those in which no mark is escaped, and of all ids, those that make no mark of their own. -/
theorem label_read_iff (id label : String) :
    ((∀ (g : Graph) (i : String), g.nodeAttr? i "label" = some label → Inert i.toList →
      g.label i = g.labelRead i label) ↔ MarksBare label.toList) ∧
    ((∀ (g : Graph) (l : String), g.nodeAttr? id "label" = some l → MarksBare l.toList →
      g.label id = g.labelRead id l) ↔ Inert id.toList) := by
  constructor
  · refine ⟨fun h => ?_, fun hlabel g i hi hinert => label_eq_labelRead hi hinert hlabel⟩
    apply Classical.byContradiction
    intro hescaped
    have hinert : Inert "xyz".toList := by
      unfold Inert
      decide
    have hread := h _ _ (nodeAttr?_labelled (some "xyz") "xyz" label) hinert
    rw [label_eq (nodeAttr?_labelled ..), substitute_substitute hinert, labelRead,
      String.ofList_inj] at hread
    have hlong : 2 < "xyz".toList.length := by decide
    have hlt := length_expand_lt hlong hlong hescaped
    exact Nat.ne_of_lt hlt (congrArg List.length hread).symm
  · refine ⟨fun h => ?_, fun hid g l hl hlabel => label_eq_labelRead hl hid hlabel⟩
    have hbare : MarksBare "\\\\\\NG".toList := by simp [MarksBare]
    have hread := h _ _ (nodeAttr?_labelled none id "\\\\\\NG") hbare
    rw [label_eq (nodeAttr?_labelled ..), labelRead, String.ofList_inj] at hread
    exact inert_of_expand hread

/-- A label with an escaped mark, and an id that makes a mark: neither is read once. -/
theorem label_read_twice :
    (labelled none "a" "\\\\N").label "a" = "\\a" ∧
    (labelled none "a" "\\\\N").labelRead "a" "\\\\N" = "\\\\N" ∧
    (labelled (some "g") "x\\G" "\\N").label "x\\G" = "xg" ∧
    (labelled (some "g") "x\\G" "\\N").labelRead "x\\G" "\\N" = "x\\G" := by
  decide

end Graph
end Tiered
