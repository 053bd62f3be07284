import Tiered.Dot.Lexeme.Id

/-!
Readers of DOT texts, which go from left to right. A reader either declines, so that something
else may begin here, or commits; what goes wrong after that is final. Every reader that reads
something leaves a shorter text, so that reading ends.
-/
namespace Tiered.Dot

/-- What was read and the text behind it. -/
abbrev Taken (α : Type) := α × List Char

/-- A reader that may decline. -/
abbrev Reader? (α : Type) := List Char → Except Failure (Option (Taken α))

/-- A reader that does not decline. -/
abbrev Reader (α : Type) := List Char → Except Failure (Taken α)

/-- What is read takes some text. -/
def Advances {α : Type} (item : Reader? α) : Prop :=
  ∀ s r, item s = .ok (some r) → r.2.length < s.length

/-- What is read leaves no more text than there was. -/
def Descends {α : Type} (read : Reader α) : Prop :=
  ∀ s r, read s = .ok r → r.2.length ≤ s.length

theorem bind_eq_ok {ε α β : Type} {x : Except ε α} {f : α → Except ε β} {b : β} :
    x >>= f = .ok b ↔ ∃ a, x = .ok a ∧ f a = .ok b := by
  cases x <;> simp [bind, Except.bind]

/-- Reads items until one is declined. -/
def many {α : Type} (item : Reader? α) (h : Advances item) : Reader (List α) := fun s =>
  match _read : item s with
  | .error failure => .error failure
  | .ok none => .ok ([], s)
  | .ok (some (a, behind)) =>
    match many item h behind with
    | .error failure => .error failure
    | .ok (rest, behind) => .ok (a :: rest, behind)
termination_by s => s.length
decreasing_by exact h _ _ _read

theorem many_descends {α : Type} {item : Reader? α} (h : Advances item) :
    Descends (many item h) := by
  intro s r hs
  fun_induction many item h s generalizing r with
  | case1 => cases hs
  | case2 => cases hs; exact Nat.le_refl _
  | case3 => cases hs
  | case4 s a rest hread as' behind' hrest ih =>
    cases hs
    exact Nat.le_trans (ih (as', behind') hrest) (Nat.le_of_lt (h _ _ hread))

/-- Reads the character `c`, or reports what was wanted. -/
def symbol (c : Char) (wanted : Wanted) (s : List Char) : Except Failure (List Char) :=
  match s with
  | d :: behind => if d = c then .ok behind else .error ⟨.wanted wanted, s⟩
  | [] => .error ⟨.wanted wanted, s⟩

theorem length_symbol {c : Char} {wanted : Wanted} {s behind : List Char}
    (h : symbol c wanted s = .ok behind) : behind.length < s.length := by
  unfold symbol at h
  split at h
  · split at h
    · cases h; exact Nat.lt_succ_self _
    · cases h
  · cases h

/-- Reads an id, or reports what was wanted. -/
def id (wanted : Wanted) : Reader String := fun s => do
  match ← id? s with
  | some read => return read
  | none => throw ⟨.wanted wanted, s⟩

theorem length_id {wanted : Wanted} {s : List Char} {r : Taken String}
    (h : id wanted s = .ok r) : r.2.length < s.length := by
  simp only [id, bind_eq_ok] at h
  obtain ⟨read, hread, h⟩ := h
  split at h
  · cases h; exact length_id? hread
  · cases h

end Tiered.Dot
