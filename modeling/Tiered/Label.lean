import Tiered.Graph

/-!
Labels: what a label says for its node, and the lines it is drawn in.
-/
namespace Tiered.Label

/-- Reads the breaks `\n`, `\l`, `\r` and the line feed, each of which ends the line so far. A
doubled backslash is one backslash, any other backslash stands for itself, and carriage returns
are dropped. The line so far is held in reverse. -/
def lines (current : List Char) : List Char → List (List Char)
  | [] => if current.isEmpty then [] else [current.reverse]
  | '\\' :: 'n' :: rest | '\\' :: 'l' :: rest | '\\' :: 'r' :: rest | '\n' :: rest =>
    current.reverse :: lines [] rest
  | '\\' :: '\\' :: rest => lines ('\\' :: current) rest
  | '\r' :: rest => lines current rest
  | c :: rest => lines (c :: current) rest

/-- The lines of a label. A break at its end opens no line, but there always is one line. -/
def split (label : String) : List String :=
  match lines [] label.toList with
  | [] => [""]
  | ls => ls.map String.ofList

/-- Puts `text` in place of each `\` followed by `mark`, from left to right. -/
def substitute (mark : Char) (text : List Char) : List Char → List Char
  | [] => []
  | [c] => [c]
  | c :: d :: rest =>
    if c = '\\' ∧ d = mark then text ++ substitute mark text rest
    else c :: substitute mark text (d :: rest)

end Label

namespace Graph

/-- The label of a node, which is its id unless the node has one: `\N` stands for the id, and then
`\G` for the name of the graph. -/
def label (g : Graph) (id : String) : String :=
  match g.nodeAttr? id "label" with
  | none => id
  | some label =>
    let withId := Label.substitute 'N' id.toList label.toList
    String.ofList (Label.substitute 'G' (g.name.getD "").toList withId)

def labelLines (g : Graph) (id : String) : List String := Label.split (g.label id)

end Graph

/-- The lines of an edge label; an empty label counts as none. -/
def Edge.labelLines? (e : Edge) : Option (List String) :=
  ((e.attr? "label").filter (· ≠ "")).map Label.split

end Tiered
