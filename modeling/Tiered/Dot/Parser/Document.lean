import Tiered.Dot.Parser.Statement

/-!
Whole DOT texts: a header, a block, and nothing behind it but blanks.
-/
namespace Tiered.Dot

/-- Reads the words before the name of the graph, and says whether it is strict and whether it is
directed. -/
def header : Reader (Bool × Bool) := fun s => do
  let start ← skipBlanks s
  let some (word, behind) := word? start | throw ⟨.wanted .header, start⟩
  match keyword? word with
  | some .strict =>
    let s ← skipBlanks behind
    let some (word, behind) := word? s | throw ⟨.wanted .header, s⟩
    return ((true, ← kind start word), behind)
  | _ => return ((false, ← kind start word), behind)
where
  kind (start word : List Char) : Except Failure Bool :=
    match keyword? word with
    | some .digraph => .ok true
    | some .graph => .ok false
    | _ => .error ⟨.wanted .header, start⟩

/-- Reads a whole text. -/
def document (s : List Char) : Except Failure Document := do
  let ((strict, directed), s) ← header s
  let s ← skipBlanks s
  let (name, s) :=
    match ← id? s with
    | some (name, behind) => (some name, behind)
    | none => (none, s)
  let s ← symbol '\x7b' .openBrace (← skipBlanks s)
  let (body, s) ← (block (maxNesting + 1)).read s
  match ← skipBlanks s with
  | [] => return { strict, directed, name, body }
  | rest => throw ⟨.trailingText, rest⟩

end Tiered.Dot
