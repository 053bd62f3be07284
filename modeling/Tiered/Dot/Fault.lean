/-!
What can be wrong with a DOT text, and the words it is reported in.
-/
namespace Tiered.Dot

/-- What the grammar asks for at a place where something else stands. -/
inductive Wanted where
  | header
  | openBrace
  | closeBrace
  | statement
  | attributeName
  | equals
  | attributeValue
  | attachment
  | joinedString
  deriving DecidableEq, Repr

inductive Fault where
  | unclosedComment
  | unclosedString
  | unclosedMarkup
  /-- `strict` or `digraph` where a statement begins. -/
  | reservedWord
  | missingTarget
  | nestedTooDeeply
  | trailingText
  | wanted (w : Wanted)
  deriving DecidableEq, Repr

def Wanted.name : Wanted → String
  | header => "`graph` or `digraph`"
  | openBrace => "`\x7b`"
  | closeBrace => "`\x7d`"
  | statement => "statement"
  | attributeName => "attribute name or `]`"
  | equals => "`=`"
  | attributeValue => "attribute value"
  | attachment => "port name"
  | joinedString => "quoted string after `+`"

def Fault.message : Fault → String
  | unclosedComment => "unterminated comment"
  | unclosedString => "unterminated string"
  | unclosedMarkup => "unterminated HTML string"
  | reservedWord => "unexpected keyword"
  | missingTarget => "edge is missing its target"
  | nestedTooDeeply => "subgraphs nested too deeply"
  | trailingText => "unexpected input after graph"
  | wanted w => "expected " ++ w.name

/-- A fault and the text that was left where it was found. -/
structure Failure where
  fault : Fault
  rest : List Char
  deriving DecidableEq, Repr

/-- A failure to read the target of an edge. What is wrong by itself keeps its name; a mere want
anywhere within the target counts as a missing target. -/
def Failure.inTarget (f : Failure) : Failure :=
  match f.fault with
  | .wanted _ => { f with fault := .missingTarget }
  | _ => f

end Tiered.Dot
