import Tiered.Dot.Parser.Attribute
import Tiered.Dot.Parser.Endpoint

/-!
Statements, and blocks of them to a bounded depth.
-/
namespace Tiered.Dot

/-- The text behind an edge operator; which of the two it is says nothing. -/
def edgeOp? : List Char → Option (List Char)
  | '-' :: '>' :: behind => some behind
  | '-' :: '-' :: behind => some behind
  | _ => none

theorem length_edgeOp? {s r : List Char} (h : edgeOp? s = some r) : r.length < s.length := by
  unfold edgeOp? at h
  split at h
  · cases h; simp only [List.length_cons]; omega
  · cases h; simp only [List.length_cons]; omega
  · cases h

/-- Reads an edge operator and the endpoint it leads to. -/
def target? (block : BlockReader) : Reader? Endpoint := fun s => do
  match edgeOp? (← skipBlanks s) with
  | none => return none
  | some behind =>
    let s ← skipBlanks behind
    match endpoint? block s with
    | .error failure => throw failure.inTarget
    | .ok none => throw ⟨.missingTarget, s⟩
    | .ok read => return read

theorem target_advances (block : BlockReader) : Advances (target? block) := by
  intro s r h
  simp only [target?, bind_eq_ok] at h
  obtain ⟨s₁, h₁, h⟩ := h
  split at h
  case h_1 => cases h
  case h_2 behind hop =>
    simp only [bind_eq_ok] at h
    obtain ⟨s₂, h₂, h⟩ := h
    have := length_skipBlanks h₁
    have := length_edgeOp? hop
    have := length_skipBlanks h₂
    split at h
    · cases h
    · cases h
    case h_3 read _ hread =>
      cases h
      have := endpoint_advances block _ _ hread
      omega

/-- The statement that a chain of endpoints makes; the attributes of a lone block are left out. -/
def Stmt.ofChain (first : Endpoint) (targets : List Endpoint) (attrs : AttrList) : Stmt :=
  match first, targets with
  | .node id, [] => .node id attrs
  | .block body, [] => .block body
  | first, targets => .edges (first :: targets) attrs

/-- Reads a chain of endpoints with its attributes, or the setting of one attribute. -/
def chain (block : BlockReader) : Reader Stmt := fun s => do
  match ← endpoint? block s with
  | none => throw ⟨.wanted .statement, s⟩
  | some (first, behind) =>
    match first, ← skipBlanks behind with
    | .node key, '=' :: behind =>
      let (value, behind) ← id .attributeValue (← skipBlanks behind)
      return (.defaults .graph [(key, value)], behind)
    | first, behind =>
      let (targets, behind) ← many (target? block) (target_advances block) behind
      let (attrs, behind) ← attrLists behind
      return (.ofChain first targets attrs, behind)

theorem length_chain {block : BlockReader} {s : List Char} {r : Taken Stmt}
    (h : chain block s = .ok r) : r.2.length < s.length := by
  simp only [chain, bind_eq_ok] at h
  obtain ⟨first, h₁, h⟩ := h
  split at h
  case h_1 => cases h
  case h_2 first behind =>
    simp only [bind_eq_ok] at h
    obtain ⟨s₂, h₂, h⟩ := h
    have hlt : behind.length < s.length := endpoint_advances block _ _ h₁
    have hle := length_skipBlanks h₂
    split at h
    · simp only [bind_eq_ok] at h
      obtain ⟨s₃, h₃, value, h₄, h⟩ := h
      cases h
      rw [List.length_cons] at hle
      have := length_skipBlanks h₃
      have := length_id h₄
      show value.2.length < s.length
      omega
    · simp only [bind_eq_ok] at h
      obtain ⟨targets, h₃, attrs, h₄, h⟩ := h
      cases h
      have := many_descends _ _ _ h₃
      have := attrLists_descends _ _ h₄
      show attrs.2.length < s.length
      omega

/-- Reads the attributes that `target` has from here on. -/
def defaults (target : Target) : Reader Stmt := fun s => do
  let (attrs, behind) ← attrLists s
  return (.defaults target attrs, behind)

theorem defaults_descends (target : Target) : Descends (defaults target) := by
  intro s r h
  simp only [defaults, bind_eq_ok] at h
  obtain ⟨attrs, h₁, h⟩ := h
  cases h
  exact attrLists_descends _ attrs h₁

/-- Reads a statement. -/
def stmt (block : BlockReader) : Reader Stmt := fun s =>
  match word? s with
  | none => chain block s
  | some (word, behind) =>
    match keyword? word with
    | some .graph => defaults .graph behind
    | some .node => defaults .node behind
    | some .edge => defaults .edge behind
    | some .strict => .error ⟨.reservedWord, s⟩
    | some .digraph => .error ⟨.reservedWord, s⟩
    | some .subgraph => chain block s
    | none => chain block s

theorem length_stmt {block : BlockReader} {s : List Char} {r : Taken Stmt}
    (h : stmt block s = .ok r) : r.2.length < s.length := by
  unfold stmt at h
  split at h
  case h_1 => exact length_chain h
  case h_2 word behind hword =>
    split at h
    case h_1 | h_2 | h_3 =>
      exact Nat.lt_of_le_of_lt (defaults_descends _ _ _ h) (length_word hword)
    case h_4 | h_5 => cases h
    case h_6 | h_7 => exact length_chain h

/-- Reads a statement, or a `;` as none; the end of the text and a closing brace decline. -/
def stmt? (block : BlockReader) : Reader? (List Stmt) := fun s => do
  match ← skipBlanks s with
  | [] => return none
  | '\x7d' :: _ => return none
  | ';' :: behind => return some ([], behind)
  | s =>
    let (st, behind) ← stmt block s
    return some ([st], behind)

theorem stmt_advances (block : BlockReader) : Advances (stmt? block) := by
  intro s r h
  simp only [stmt?, bind_eq_ok] at h
  obtain ⟨s₁, h₁, h⟩ := h
  have hle := length_skipBlanks h₁
  split at h
  · cases h
  · cases h
  · cases h; exact hle
  · simp only [bind_eq_ok] at h
    obtain ⟨st, h₂, h⟩ := h
    cases h
    exact Nat.lt_of_lt_of_le (length_stmt h₂) hle

/-! Blocks -/

/-- Reads statements and the brace behind them. -/
def statements (block : BlockReader) : Reader (List Stmt) := fun s => do
  let (body, s) ← many (stmt? block) (stmt_advances block) s
  return (body.flatten, ← symbol '\x7d' .closeBrace (← skipBlanks s))

theorem statements_descends (block : BlockReader) : Descends (statements block) := by
  intro s r h
  simp only [statements, bind_eq_ok] at h
  obtain ⟨body, h₁, s₂, h₂, s₃, h₃, h⟩ := h
  cases h
  have := many_descends _ _ _ h₁
  have := length_skipBlanks h₂
  have := length_symbol h₃
  simp only; omega

/-- A reader of blocks, at most `depth` of them within one another. -/
def block : Nat → BlockReader
  | 0 => ⟨fun s => .error ⟨.nestedTooDeeply, s⟩, fun _ _ h => nomatch h⟩
  | depth + 1 => ⟨statements (block depth), statements_descends (block depth)⟩

/-- How many blocks may lie within one another inside the outermost. -/
def maxNesting : Nat := 128

end Tiered.Dot
