import Tiered.Text.Blank
import Tiered.Dot.Fault

/-!
Blanks and comments, which may stand between any two parts of a DOT text.
-/
namespace Tiered.Dot

open Text (isBlank)

/-- The text behind the end of a block comment. -/
def afterComment? : List Char → Option (List Char)
  | [] => none
  | '*' :: '/' :: rest => some rest
  | _ :: rest => afterComment? rest

theorem length_afterComment {s r : List Char} (h : afterComment? s = some r) :
    r.length < s.length := by
  fun_induction afterComment? s with
  | case1 => simp at h
  | case2 rest => cases h; simp only [List.length_cons]; omega
  | case3 c rest _ ih => have := ih h; simp only [List.length_cons]; omega

def afterLine (s : List Char) : List Char := s.dropWhile (· ≠ '\n')

theorem length_dropWhile_le (p : Char → Bool) (s : List Char) :
    (s.dropWhile p).length ≤ s.length := by
  simpa using (List.dropWhile_sublist p (l := s)).length_le

/-- Leaves out blanks, line comments and block comments. -/
def skipBlanks (s : List Char) : Except Failure (List Char) :=
  match s with
  | [] => .ok []
  | '#' :: rest => skipBlanks (afterLine rest)
  | '/' :: '/' :: rest => skipBlanks (afterLine rest)
  | '/' :: '*' :: rest =>
    match _behind : afterComment? rest with
    | some behind => skipBlanks behind
    | none => .error ⟨.unclosedComment, s⟩
  | c :: rest => if isBlank c then skipBlanks rest else .ok (c :: rest)
termination_by s.length
decreasing_by
  · have := length_dropWhile_le (· ≠ '\n') rest
    simp only [afterLine, List.length_cons]; omega
  · have := length_dropWhile_le (· ≠ '\n') rest
    simp only [afterLine, List.length_cons]; omega
  · have := length_afterComment _behind
    simp only [List.length_cons]; omega
  · simp

theorem length_skipBlanks {s r : List Char} (h : skipBlanks s = .ok r) : r.length ≤ s.length := by
  fun_induction skipBlanks s with
  | case1 => cases h; simp
  | case2 rest ih =>
    have := ih h
    have := length_dropWhile_le (· ≠ '\n') rest
    simp only [afterLine, List.length_cons] at *; omega
  | case3 rest ih =>
    have := ih h
    have := length_dropWhile_le (· ≠ '\n') rest
    simp only [afterLine, List.length_cons] at *; omega
  | case4 rest behind hb ih =>
    have := ih h
    have := length_afterComment hb
    simp only [List.length_cons]; omega
  | case5 => cases h
  | case6 c rest _ _ _ _ ih => have := ih h; simp only [List.length_cons]; omega
  | case7 => cases h; simp

end Tiered.Dot
