import Tiered.Dot.Lexeme.Blanks

/-!
Numerals of a DOT text: digits with at most one point, and at most a minus sign before them.
-/
namespace Tiered.Dot

/-- Digits with a point before, within, behind or without one. -/
def unsigned? : List Char → Option (List Char × List Char)
  | '.' :: rest =>
    match rest.takeWhile Char.isDigit with
    | [] => none
    | ds => some ('.' :: ds, rest.dropWhile Char.isDigit)
  | s =>
    match s.takeWhile Char.isDigit, s.dropWhile Char.isDigit with
    | [], _ => none
    | ds, '.' :: rest =>
      some (ds ++ '.' :: rest.takeWhile Char.isDigit, rest.dropWhile Char.isDigit)
    | ds, rest => some (ds, rest)

def numeral? : List Char → Option (List Char × List Char)
  | '-' :: rest => (unsigned? rest).map fun (ds, behind) => ('-' :: ds, behind)
  | s => unsigned? s

theorem length_dropWhile_lt {p : Char → Bool} {s : List Char} (h : s.takeWhile p ≠ []) :
    (s.dropWhile p).length < s.length := by
  cases s with
  | nil => exact absurd rfl h
  | cons c rest =>
    cases hc : p c with
    | false => simp [hc] at h
    | true =>
      rw [List.dropWhile_cons_of_pos hc]
      exact Nat.lt_succ_of_le (length_dropWhile_le _ _)

theorem length_unsigned {s v r : List Char} (h : unsigned? s = some (v, r)) :
    r.length < s.length := by
  unfold unsigned? at h
  split at h
  case h_1 rest =>
    split at h
    · cases h
    · cases h
      exact Nat.lt_succ_of_le (length_dropWhile_le _ _)
  case h_2 =>
    split at h
    case h_1 => cases h
    case h_2 rest hdrop hne =>
      cases h
      have h1 := length_dropWhile_lt hne
      have h2 := length_dropWhile_le Char.isDigit rest
      rw [hdrop, List.length_cons] at h1
      omega
    case h_3 hne _ =>
      cases h
      exact length_dropWhile_lt hne

theorem length_numeral {s v r : List Char} (h : numeral? s = some (v, r)) :
    r.length < s.length := by
  unfold numeral? at h
  split at h
  · obtain ⟨⟨v', r'⟩, hu, he⟩ := Option.map_eq_some_iff.mp h
    cases he
    exact Nat.lt_succ_of_lt (length_unsigned hu)
  · exact length_unsigned h

end Tiered.Dot
