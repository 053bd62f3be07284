import Tiered.Graph

/-!
The canonical DOT text of a graph: its attributes, every node, then every edge, with all ids in
quotes. Ids that quotes would change are written as markup.
-/
namespace Tiered.Dot

/-- Whether a quoted spelling reads back unchanged after `odd` backslashes too many: a backslash
takes the next character along, so none may be left before a quote, a line break or the end. -/
def quotable (odd : Bool) : List Char → Bool
  | [] => !odd
  | c :: rest =>
    if c = '\\' then quotable (!odd) rest
    else if odd && (c = '"' || c = '\n' || c = '\r') then false
    else quotable false rest

/-- Whether all angle brackets match, `depth` of them being open before the text. -/
def balanced (depth : Nat) : List Char → Bool
  | [] => depth == 0
  | '<' :: rest => balanced (depth + 1) rest
  | '>' :: rest =>
    match depth with
    | 0 => false
    | depth + 1 => balanced depth rest
  | _ :: rest => balanced depth rest

def escapeQuotes (s : List Char) : List Char :=
  s.flatMap fun c => if c = '"' then ['\\', '"'] else [c]

/-- How an id is written. -/
def quote (id : String) : List Char :=
  let s := id.toList
  if !quotable false s && balanced 0 s then '<' :: s ++ ['>']
  else '"' :: escapeQuotes s ++ ['"']

def pair (e : String × String) : List Char := quote e.1 ++ '=' :: quote e.2

def bracket (attrs : Attrs) : List Char :=
  '[' :: [',', ' '].intercalate (attrs.entries.map pair) ++ [']']

/-- A line of the text, which holds one statement. -/
def statement (s : List Char) : List Char := ' ' :: ' ' :: s ++ [';', '\n']

def nodeText (g : Graph) (id : String) : List Char :=
  let attrs := (g.nodeAttrs.get? id).getD ∅
  quote id ++ if attrs.isEmpty then [] else ' ' :: bracket attrs

def edgeText (directed : Bool) (e : Edge) : List Char :=
  let op := if directed then " -> " else " -- "
  quote e.source ++ op.toList ++ quote e.target ++
    if e.attrs.isEmpty then [] else ' ' :: bracket e.attrs

def headerText (g : Graph) : List Char :=
  (if g.strict then "strict " else "").toList ++
    (if g.directed then "digraph" else "graph").toList ++
    (match g.name with
      | some name => ' ' :: quote name
      | none => []) ++
    [' ', '{', '\n']

def graphText (g : Graph) : List Char :=
  headerText g ++
    (g.attrs.entries.flatMap fun e => statement (pair e)) ++
    (g.nodes.flatMap fun id => statement (nodeText g id)) ++
    (g.edges.flatMap fun e => statement (edgeText g.directed e)) ++
    ['}', '\n']

end Dot

def Graph.toDot (g : Graph) : String := String.ofList (Dot.graphText g)

end Tiered
