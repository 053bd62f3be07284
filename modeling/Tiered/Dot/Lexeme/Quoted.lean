import Tiered.Dot.Lexeme.Blanks

/-!
Strings of a DOT text: quoted ones, which a `+` joins, and markup between angle brackets.
-/
namespace Tiered.Dot

/-- Puts a character before what was read. -/
def push (c : Char) (read : List Char × List Char) : List Char × List Char :=
  (c :: read.1, read.2)

/-- The text up to the closing quote. A backslash takes the next character along: before a quote
it is dropped, before a line break both are, and before anything else both stay. -/
def quoted? : List Char → Option (List Char × List Char)
  | [] => none
  | '"' :: rest => some ([], rest)
  | '\\' :: '"' :: rest => (quoted? rest).map (push '"')
  | '\\' :: '\n' :: rest => quoted? rest
  | '\\' :: '\r' :: '\n' :: rest => quoted? rest
  | '\\' :: '\r' :: rest => quoted? rest
  | '\\' :: c :: rest => (quoted? rest).map fun r => push '\\' (push c r)
  | ['\\'] => none
  | c :: rest => (quoted? rest).map (push c)

/-- The text up to the bracket that closes the one before it; within it, `depth` more are open. -/
def markup? (depth : Nat) : List Char → Option (List Char × List Char)
  | [] => none
  | '<' :: rest => (markup? (depth + 1) rest).map (push '<')
  | '>' :: rest =>
    match depth with
    | 0 => some ([], rest)
    | depth + 1 => (markup? depth rest).map (push '>')
  | c :: rest => (markup? depth rest).map (push c)

theorem length_quoted {s v r : List Char} (h : quoted? s = some (v, r)) :
    r.length < s.length := by
  fun_induction quoted? s generalizing v with
  | case1 => simp at h
  | case2 rest => cases h; simp
  | case3 rest ih | case9 c rest _ _ _ _ _ _ _ ih =>
    obtain ⟨⟨v', r'⟩, hq, he⟩ := Option.map_eq_some_iff.mp h
    simp only [push, Prod.mk.injEq] at he
    obtain ⟨-, rfl⟩ := he
    have := ih hq
    simp only [List.length_cons]; omega
  | case4 rest ih | case5 rest ih | case6 rest _ ih =>
    have := ih h; simp only [List.length_cons]; omega
  | case7 c rest _ _ _ _ ih =>
    obtain ⟨⟨v', r'⟩, hq, he⟩ := Option.map_eq_some_iff.mp h
    simp only [push, Prod.mk.injEq] at he
    obtain ⟨-, rfl⟩ := he
    have := ih hq
    simp only [List.length_cons]; omega
  | case8 => simp at h

theorem length_markup {depth : Nat} {s v r : List Char} (h : markup? depth s = some (v, r)) :
    r.length < s.length := by
  fun_induction markup? depth s generalizing v with
  | case1 => cases h
  | case2 depth rest ih | case4 rest depth ih | case5 depth c rest _ _ ih =>
    obtain ⟨⟨v', r'⟩, hm, he⟩ := Option.map_eq_some_iff.mp h
    simp only [push, Prod.mk.injEq] at he
    obtain ⟨-, rfl⟩ := he
    exact Nat.lt_succ_of_lt (ih hm)
  | case3 => cases h; exact Nat.lt_succ_self _

/-- Further quoted strings, each behind a `+`. Without a `+` nothing is read, not even blanks. -/
def joined (s : List Char) : Except Failure (List Char × List Char) :=
  match _hs : skipBlanks s with
  | .error e => .error e
  | .ok ('+' :: t) =>
    match _ht : skipBlanks t with
    | .error e => .error e
    | .ok ('"' :: u) =>
      match _hu : quoted? u with
      | none => .error ⟨.unclosedString, '"' :: u⟩
      | some (value, behind) => (joined behind).map fun r => (value ++ r.1, r.2)
    | .ok u => .error ⟨.wanted .joinedString, u⟩
  | .ok _ => .ok ([], s)
termination_by s.length
decreasing_by
  have h1 := length_skipBlanks _hs
  have h2 := length_skipBlanks _ht
  have h3 := length_quoted _hu
  simp only [List.length_cons] at *
  omega

theorem map_eq_ok {ε α β : Type} {x : Except ε α} {f : α → β} {b : β} :
    x.map f = .ok b ↔ ∃ a, x = .ok a ∧ f a = b := by
  cases x <;> simp [Except.map]

theorem length_joined {s v r : List Char} (h : joined s = .ok (v, r)) :
    r.length ≤ s.length := by
  fun_induction joined s generalizing v with
  | case1 => cases h
  | case2 => cases h
  | case3 => cases h
  | case4 s t hs u ht value behind hu ih =>
    obtain ⟨⟨v', r'⟩, hj, he⟩ := map_eq_ok.mp h
    simp only [Prod.mk.injEq] at he
    obtain ⟨-, rfl⟩ := he
    have h1 := length_skipBlanks hs
    have h2 := length_skipBlanks ht
    have h3 := length_quoted hu
    have h4 := ih hj
    simp only [List.length_cons] at h1 h2 ⊢
    omega
  | case5 => cases h
  | case6 => cases h; exact Nat.le_refl _

end Tiered.Dot
