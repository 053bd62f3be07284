import Tiered.Text.Blank

/-!
Where a text is wrong: the place in bytes, in lines and in columns, and a glimpse of what stands
there.
-/
namespace Tiered.Dot

structure SyntaxError where
  message : String
  /-- In bytes from the start of the text. -/
  offset : Nat
  /-- Counted from one. -/
  line : Nat
  /-- In characters, counted from one. -/
  column : Nat
  snippet : String
  deriving DecidableEq, Repr

def utf8Size : List Char → Nat
  | [] => 0
  | c :: rest => c.utf8Size + utf8Size rest

/-- Cuts a text at the last character boundary that is at most `offset` bytes in. -/
def cutAt (offset : Nat) : List Char → List Char × List Char
  | [] => ([], [])
  | c :: rest =>
    if c.utf8Size ≤ offset then
      let (before, behind) := cutAt (offset - c.utf8Size) rest
      (c :: before, behind)
    else ([], c :: rest)

/-- The longest glimpse of a text, in characters. -/
def glimpseLength : Nat := 40

/-- The first line of a text, cut to size. -/
def glimpse (s : List Char) : String :=
  match Text.strip (s.takeWhile (· ≠ '\n')) with
  | [] => "end of input"
  | line =>
    if glimpseLength < line.length then String.ofList (line.take glimpseLength) ++ "..."
    else String.ofList line

/-- The error at an offset into a text. An offset within a character or behind the text is taken
back to the boundary before it. -/
def SyntaxError.locate (source : String) (offset : Nat) (message : String) : SyntaxError :=
  let (before, behind) := cutAt offset source.toList
  { message
    offset := utf8Size before
    line := before.count '\n' + 1
    column := (before.reverse.takeWhile (· ≠ '\n')).length + 1
    snippet := glimpse behind }

def SyntaxError.text (e : SyntaxError) : String :=
  "syntax error in DOT graph at line " ++ toString e.line ++ ", column " ++ toString e.column ++
    ": " ++ e.message ++ " near `" ++ e.snippet ++ "`"

end Tiered.Dot
