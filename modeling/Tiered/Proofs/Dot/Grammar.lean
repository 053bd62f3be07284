import Tiered.Dot.Lexeme.Word
import Tiered.Dot.Printer
import Tiered.Dot.Tree

/-!
# The grammar of DOT texts

What a DOT text is, said without reading one.

* `Spells`, `Gap`: the texts of single tokens, and the blanks and comments between them;
* `Lexes`: a text falls into tokens, each of which is the longest that can stand at its place;
* `IsStmt`, `IsBlock`: statements over tokens, and blocks of them to a bounded depth;
* `IsDocument`: the syntax trees of a text.
-/
namespace Tiered.Dot

/-! ## Tokens -/

inductive Token where
  /-- An id or a keyword. -/
  | word (w : List Char)
  | numeral (n : List Char)
  /-- A string in quotes, by what it stands for. -/
  | quoted (value : List Char)
  | markup (value : List Char)
  | symbol (c : Char)
  | edgeOp
  deriving DecidableEq

/-- The characters that are tokens by themselves. -/
def symbols : List Char := ['\x7b', '\x7d', '[', ']', '=', ',', ';', ':', '+']

/-- Characters of words of which the first is no digit. -/
def IsWord (w : List Char) : Prop :=
  (∃ c rest, w = c :: rest ∧ c.isDigit = false) ∧ ∀ c ∈ w, isWordPart c = true

def AllDigits (ds : List Char) : Prop := ∀ d ∈ ds, d.isDigit = true

/-- Digits with at most one point before, within or behind them. -/
inductive IsUnsigned : List Char → Prop
  | whole {ds} : ds ≠ [] → AllDigits ds → IsUnsigned ds
  | pointed {ds es} : ds ≠ [] → AllDigits ds → AllDigits es → IsUnsigned (ds ++ '.' :: es)
  | fraction {es} : es ≠ [] → AllDigits es → IsUnsigned ('.' :: es)

inductive IsNumeral : List Char → Prop
  | positive {n} : IsUnsigned n → IsNumeral n
  | negative {n} : IsUnsigned n → IsNumeral ('-' :: n)

/-- What stands between two quotes, and what it stands for. A backslash before a quote is dropped,
one before a line break is dropped with it, and any other stays with the character behind it. -/
inductive QuotedBody : List Char → List Char → Prop
  | nil : QuotedBody [] []
  | plain {c s v} : c ≠ '"' → c ≠ '\\' → QuotedBody s v → QuotedBody (c :: s) (c :: v)
  | quote {s v} : QuotedBody s v → QuotedBody ('\\' :: '"' :: s) ('"' :: v)
  | lineFeed {s v} : QuotedBody s v → QuotedBody ('\\' :: '\n' :: s) v
  | lineEnd {s v} : QuotedBody s v → QuotedBody ('\\' :: '\r' :: '\n' :: s) v
  | carriageReturn {s v} : s.head? ≠ some '\n' → QuotedBody s v → QuotedBody ('\\' :: '\r' :: s) v
  | pair {c s v} : c ≠ '"' → c ≠ '\n' → c ≠ '\r' → QuotedBody s v →
      QuotedBody ('\\' :: c :: s) ('\\' :: c :: v)

/-- The texts of a token. -/
inductive Spells : Token → List Char → Prop
  | word {w} : IsWord w → Spells (.word w) w
  | numeral {n} : IsNumeral n → Spells (.numeral n) n
  | quoted {s v} : QuotedBody s v → Spells (.quoted v) ('"' :: (s ++ ['"']))
  | markup {s} : balanced 0 s = true → Spells (.markup s) ('<' :: (s ++ ['>']))
  | symbol {c} : c ∈ symbols → Spells (.symbol c) [c]
  | arrow : Spells .edgeOp ['-', '>']
  | line : Spells .edgeOp ['-', '-']

/-- Texts that say nothing: a blank, a comment to the end of its line, and a comment that is
closed. -/
inductive Gap : List Char → Prop
  | blank {c} : Text.isBlank c = true → Gap [c]
  | hash {s} : '\n' ∉ s → Gap ('#' :: s)
  | slashes {s} : '\n' ∉ s → Gap ('/' :: '/' :: s)
  | comment {s} : ¬ ['*', '/'] <:+: s → Gap ('/' :: '*' :: (s ++ ['*', '/']))

/-- Nothing longer than `p` that is a token or a gap stands before the text `p ++ rest`. -/
def Longest (p rest : List Char) : Prop :=
  ∀ q r, q ++ r = p ++ rest → (Gap q ∨ ∃ t, Spells t q) → q.length ≤ p.length

/-- A text falls into tokens and gaps, from left to right the longest there are. -/
inductive Lexes : List Char → List Token → Prop
  | nil : Lexes [] []
  | gap {p rest ts} : Gap p → Longest p rest → Lexes rest ts → Lexes (p ++ rest) ts
  | token {t p rest ts} : Spells t p → Longest p rest → Lexes rest ts →
      Lexes (p ++ rest) (t :: ts)

/-! ## Phrases -/

/-- Any number of phrases after one another. -/
inductive Many {α : Type} (Phrase : List Token → α → Prop) : List Token → List α → Prop
  | nil : Many Phrase [] []
  | cons {us vs a as} : Phrase us a → Many Phrase vs as → Many Phrase (us ++ vs) (a :: as)

/-- Further strings, each behind a `+`. -/
inductive IsJoined : List Token → List Char → Prop
  | nil : IsJoined [] []
  | cons {us v w} : IsJoined us w → IsJoined (.symbol '+' :: .quoted v :: us) (v ++ w)

inductive IsId : List Token → String → Prop
  | quoted {us v w} : IsJoined us w → IsId (.quoted v :: us) (String.ofList (v ++ w))
  | markup {v} : IsId [.markup v] (String.ofList v)
  | numeral {n} : IsId [.numeral n] (String.ofList n)
  | word {w} : keyword? w = none → IsId [.word w] (String.ofList w)

/-- At most so many attachments, each an id behind a colon. -/
inductive IsAttachments : Nat → List Token → Prop
  | none {n} : IsAttachments n []
  | cons {n us vs name} : IsId us name → IsAttachments n vs →
      IsAttachments (n + 1) (.symbol ':' :: (us ++ vs))

inductive IsNodeId : List Token → String → Prop
  | mk {us vs id} : IsId us id → IsAttachments 2 vs → IsNodeId (us ++ vs) id

/-- One `,` or `;`, or nothing. -/
inductive IsSeparator : List Token → Prop
  | none : IsSeparator []
  | comma : IsSeparator [.symbol ',']
  | semicolon : IsSeparator [.symbol ';']

inductive IsAttr : List Token → String × String → Prop
  | mk {us vs ws key value} : IsId us key → IsId vs value → IsSeparator ws →
      IsAttr (us ++ .symbol '=' :: (vs ++ ws)) (key, value)

inductive IsBracket : List Token → AttrList → Prop
  | mk {us attrs} : Many IsAttr us attrs → IsBracket (.symbol '[' :: (us ++ [.symbol ']'])) attrs

/-- Any number of attribute lists make one. -/
inductive IsAttrLists : List Token → AttrList → Prop
  | mk {us lists} : Many IsBracket us lists → IsAttrLists us lists.flatten

section Block

-- The blocks that stand within these phrases.
variable (Block : List Token → List Stmt → Prop)

inductive IsSubgraph : List Token → List Stmt → Prop
  | bare {us body} : Block us body → IsSubgraph us body
  | headed {w us body} : keyword? w = some .subgraph → Block us body →
      IsSubgraph (.word w :: us) body
  | named {w us vs name body} : keyword? w = some .subgraph → IsId us name → Block vs body →
      IsSubgraph (.word w :: (us ++ vs)) body

inductive IsEndpoint : List Token → Endpoint → Prop
  | node {us id} : IsNodeId us id → IsEndpoint us (.node id)
  | block {us body} : IsSubgraph Block us body → IsEndpoint us (.block body)

inductive IsTarget : List Token → Endpoint → Prop
  | mk {us e} : IsEndpoint Block us e → IsTarget (.edgeOp :: us) e

/-- The keywords of defaults. -/
def Target.keyword : Target → Keyword
  | graph => .graph
  | node => .node
  | edge => .edge

/-- The attributes behind a lone block are left out. -/
inductive IsStmt : List Token → Stmt → Prop
  | defaults {w us target attrs} : keyword? w = some target.keyword → IsAttrLists us attrs →
      IsStmt (.word w :: us) (.defaults target attrs)
  | setting {us vs key value} : IsNodeId us key → IsId vs value →
      IsStmt (us ++ .symbol '=' :: vs) (.defaults .graph [(key, value)])
  | node {us vs id attrs} : IsNodeId us id → IsAttrLists vs attrs →
      IsStmt (us ++ vs) (.node id attrs)
  | block {us vs body attrs} : IsSubgraph Block us body → IsAttrLists vs attrs →
      IsStmt (us ++ vs) (.block body)
  | edges {us vs ws first second others attrs} : IsEndpoint Block us first →
      Many (IsTarget Block) vs (second :: others) → IsAttrLists ws attrs →
      IsStmt (us ++ (vs ++ ws)) (.edges (first :: second :: others) attrs)

/-- A statement, or a `;` as none. -/
inductive IsItem : List Token → List Stmt → Prop
  | semicolon : IsItem [.symbol ';'] []
  | stmt {us s} : IsStmt Block us s → IsItem us [s]

/-- Statements between braces. -/
inductive Braced : List Token → List Stmt → Prop
  | mk {us items} : Many (IsItem Block) us items →
      Braced (.symbol '\x7b' :: (us ++ [.symbol '\x7d'])) items.flatten

end Block

/-- Blocks, at most `depth` of them within one another. -/
def IsBlock : Nat → List Token → List Stmt → Prop
  | 0 => fun _ _ => False
  | depth + 1 => Braced (IsBlock depth)

inductive IsStrict : List Token → Bool → Prop
  | no : IsStrict [] false
  | yes {w} : keyword? w = some .strict → IsStrict [.word w] true

inductive IsKind : Token → Bool → Prop
  | graph {w} : keyword? w = some .graph → IsKind (.word w) false
  | digraph {w} : keyword? w = some .digraph → IsKind (.word w) true

inductive IsName : List Token → Option String → Prop
  | none : IsName [] none
  | some {us name} : IsId us name → IsName us (some name)

/-- The outermost block, in which at most 128 others lie within one another, behind its header. -/
inductive IsGraph : List Token → Document → Prop
  | mk {us kind vs ws strict directed name body} : IsStrict us strict → IsKind kind directed →
      IsName vs name → IsBlock (128 + 1) ws body →
      IsGraph (us ++ kind :: (vs ++ ws)) { strict, directed, name, body }

/-- A syntax tree of a text. -/
def IsDocument (s : List Char) (d : Document) : Prop := ∃ ts, Lexes s ts ∧ IsGraph ts d

end Tiered.Dot
