import Tiered.Dot.Lexeme.Word
import Tiered.Dot.Lexeme.Numeral
import Tiered.Dot.Lexeme.Quoted

/-!
Ids of a DOT text, which are strings, markup, numerals, or words that are no keywords.
-/
namespace Tiered.Dot

/-- Reads an id if one begins here. A text that begins like a string or like markup has to end
like one. -/
def id? (s : List Char) : Except Failure (Option (String × List Char)) :=
  match s with
  | '"' :: t =>
    match quoted? t with
    | none => .error ⟨.unclosedString, s⟩
    | some (value, behind) =>
      (joined behind).map fun r => some (String.ofList (value ++ r.1), r.2)
  | '<' :: t =>
    match markup? 0 t with
    | none => .error ⟨.unclosedMarkup, s⟩
    | some (value, behind) => .ok (some (String.ofList value, behind))
  | s =>
    match numeral? s with
    | some (value, behind) => .ok (some (String.ofList value, behind))
    | none =>
      match word? s with
      | none => .ok none
      | some (word, behind) =>
        .ok (if (keyword? word).isSome then none else some (String.ofList word, behind))

theorem length_id? {s : List Char} {v : String} {r : List Char} (h : id? s = .ok (some (v, r))) :
    r.length < s.length := by
  unfold id? at h
  split at h
  case h_1 t =>
    split at h
    case h_1 => cases h
    case h_2 value behind hq =>
      obtain ⟨⟨v', r'⟩, hj, he⟩ := map_eq_ok.mp h
      simp only [Option.some.injEq, Prod.mk.injEq] at he
      obtain ⟨-, rfl⟩ := he
      have h1 := length_quoted hq
      have h2 := length_joined hj
      simp only [List.length_cons] at h1 ⊢
      omega
  case h_2 t =>
    split at h
    case h_1 => cases h
    case h_2 value behind hm => cases h; exact Nat.lt_succ_of_lt (length_markup hm)
  case h_3 =>
    split at h
    case h_1 value behind hn => cases h; exact length_numeral hn
    case h_2 =>
      split at h
      case h_1 => cases h
      case h_2 word behind hw =>
        split at h
        · cases h
        · cases h; exact length_word hw

end Tiered.Dot
