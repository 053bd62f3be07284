import Tiered.Dot.Parser.Basic
import Tiered.Dot.Tree

/-!
Attribute lists in brackets. Lists that follow one another are read as one.
-/
namespace Tiered.Dot

/-- Leaves out one `,` or `;`. -/
def skipSeparator (s : List Char) : Except Failure (List Char) := do
  match ← skipBlanks s with
  | ',' :: behind => return behind
  | ';' :: behind => return behind
  | s => return s

theorem length_skipSeparator {s r : List Char} (h : skipSeparator s = .ok r) :
    r.length ≤ s.length := by
  simp only [skipSeparator, bind_eq_ok] at h
  obtain ⟨t, ht, h⟩ := h
  have hle := length_skipBlanks ht
  split at h
  · cases h; exact Nat.le_of_succ_le hle
  · cases h; exact Nat.le_of_succ_le hle
  · cases h; exact hle

/-- Reads one attribute; a `]` declines. -/
def attr? : Reader? (String × String) := fun s => do
  let s ← skipBlanks s
  if s.head? = some ']' then
    return none
  let (key, s) ← id .attributeName s
  let s ← symbol '=' .equals (← skipBlanks s)
  let (value, s) ← id .attributeValue (← skipBlanks s)
  return some ((key, value), ← skipSeparator s)

theorem attr_advances : Advances attr? := by
  intro s r h
  simp only [attr?, bind_eq_ok] at h
  obtain ⟨s₁, h₁, h⟩ := h
  split at h
  · cases h
  · simp only [bind_eq_ok] at h
    obtain ⟨key, h₂, s₃, h₃, s₄, h₄, s₅, h₅, value, h₆, s₇, h₇, h⟩ := h
    cases h
    have := length_skipBlanks h₁
    have := length_id h₂
    have := length_skipBlanks h₃
    have := length_symbol h₄
    have := length_skipBlanks h₅
    have := length_id h₆
    have := length_skipSeparator h₇
    simp only; omega

/-- Reads the attributes between two brackets. -/
def bracket? : Reader? (List (String × String)) := fun s => do
  match ← skipBlanks s with
  | '[' :: s =>
    let (attrs, s) ← many attr? attr_advances s
    return some (attrs, ← symbol ']' .attributeName (← skipBlanks s))
  | _ => return none

theorem bracket_advances : Advances bracket? := by
  intro s r h
  simp only [bracket?, bind_eq_ok] at h
  obtain ⟨s₁, h₁, h⟩ := h
  split at h
  · simp only [bind_eq_ok] at h
    obtain ⟨attrs, h₂, s₃, h₃, s₄, h₄, h⟩ := h
    cases h
    have := length_skipBlanks h₁
    have := many_descends _ _ _ h₂
    have := length_skipBlanks h₃
    have := length_symbol h₄
    simp only [List.length_cons] at *; omega
  · cases h

/-- Reads any number of attribute lists as one. -/
def attrLists : Reader AttrList := fun s => do
  let (lists, s) ← many bracket? bracket_advances s
  return (lists.flatten, s)

theorem attrLists_descends : Descends attrLists := by
  intro s r h
  simp only [attrLists, bind_eq_ok] at h
  obtain ⟨lists, h₁, h⟩ := h
  cases h
  exact many_descends _ _ lists h₁

end Tiered.Dot
