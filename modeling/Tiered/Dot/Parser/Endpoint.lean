import Tiered.Dot.Parser.Basic
import Tiered.Dot.Tree

/-!
What an edge can lead to: node ids and blocks. How the statements of a block are read is left open
here, since they hold endpoints themselves.
-/
namespace Tiered.Dot

/-- Leaves out up to `count` attachments, each an id behind a colon. -/
def skipAttachments (count : Nat) (s : List Char) : Except Failure (List Char) :=
  match count with
  | 0 => .ok s
  | count + 1 => do
    match ← skipBlanks s with
    | ':' :: behind => skipAttachments count (← id .attachment (← skipBlanks behind)).2
    | _ => return s

theorem length_skipAttachments {count : Nat} {s r : List Char}
    (h : skipAttachments count s = .ok r) : r.length ≤ s.length := by
  induction count generalizing s with
  | zero => cases h; exact Nat.le_refl _
  | succ count ih =>
    simp only [skipAttachments, bind_eq_ok] at h
    obtain ⟨s₁, h₁, h⟩ := h
    split at h
    · simp only [bind_eq_ok] at h
      obtain ⟨s₂, h₂, attachment, h₃, h⟩ := h
      have hle := length_skipBlanks h₁
      rw [List.length_cons] at hle
      have := length_skipBlanks h₂
      have := length_id h₃
      have := ih h
      omega
    · cases h; exact Nat.le_refl _

/-- Reads a node id with what it says of the place on the node, which is left out. -/
def nodeId? : Reader? String := fun s => do
  match ← id? s with
  | none => return none
  | some (node, behind) => return some (node, ← skipAttachments 2 behind)

theorem nodeId_advances : Advances nodeId? := by
  intro s r h
  simp only [nodeId?, bind_eq_ok] at h
  obtain ⟨node, h₁, h⟩ := h
  split at h
  · cases h
  · simp only [bind_eq_ok] at h
    obtain ⟨behind, h₂, h⟩ := h
    cases h
    exact Nat.lt_of_le_of_lt (length_skipAttachments h₂) (length_id? h₁)

/-- A reader of statements up to the brace that closes them. -/
structure BlockReader where
  read : Reader (List Stmt)
  descends : Descends read

/-- Leaves out a name if there is one. -/
def skipName (s : List Char) : Except Failure (List Char) := do
  match ← id? s with
  | some (_, behind) => return behind
  | none => return s

theorem length_skipName {s r : List Char} (h : skipName s = .ok r) : r.length ≤ s.length := by
  simp only [skipName, bind_eq_ok] at h
  obtain ⟨name, h₁, h⟩ := h
  split at h
  · cases h; exact Nat.le_of_lt (length_id? h₁)
  · cases h; exact Nat.le_refl _

/-- Reads a block of statements; the word `subgraph` and a name may stand before it. -/
def subgraph? (block : BlockReader) : Reader? (List Stmt) := fun s => do
  match word? s with
  | some (word, behind) =>
    if keyword? word = some .subgraph then
      let s ← skipName (← skipBlanks behind)
      let s ← symbol '\x7b' .openBrace (← skipBlanks s)
      return some (← block.read s)
    else
      return none
  | none =>
    match s with
    | '\x7b' :: behind => return some (← block.read behind)
    | _ => return none

theorem subgraph_advances (block : BlockReader) : Advances (subgraph? block) := by
  intro s r h
  simp only [subgraph?] at h
  split at h
  case h_1 word behind hword =>
    split at h
    · simp only [bind_eq_ok] at h
      obtain ⟨s₁, h₁, s₂, h₂, s₃, h₃, s₄, h₄, body, h₅, h⟩ := h
      cases h
      have := length_word hword
      have := length_skipBlanks h₁
      have := length_skipName h₂
      have := length_skipBlanks h₃
      have := length_symbol h₄
      have := block.descends _ _ h₅
      omega
    · cases h
  case h_2 =>
    split at h
    · simp only [bind_eq_ok] at h
      obtain ⟨body, h₁, h⟩ := h
      cases h
      exact Nat.lt_succ_of_le (block.descends _ _ h₁)
    · cases h

/-- Reads a block or a node id. -/
def endpoint? (block : BlockReader) : Reader? Endpoint := fun s => do
  match ← subgraph? block s with
  | some (body, behind) => return some (.block body, behind)
  | none =>
    match ← nodeId? s with
    | some (node, behind) => return some (.node node, behind)
    | none => return none

theorem endpoint_advances (block : BlockReader) : Advances (endpoint? block) := by
  intro s r h
  simp only [endpoint?, bind_eq_ok] at h
  obtain ⟨body, h₁, h⟩ := h
  split at h
  · cases h; exact subgraph_advances block _ _ h₁
  · simp only [bind_eq_ok] at h
    obtain ⟨node, h₂, h⟩ := h
    split at h
    · cases h; exact nodeId_advances _ _ h₂
    · cases h

end Tiered.Dot
