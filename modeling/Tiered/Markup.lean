/-!
Nested tags with attributes and text, and how they are written. Text and attribute values are
escaped, so they never end what they stand in.
-/
namespace Tiered

inductive Markup where
  | text (content : String)
  /-- A tag without content. -/
  | void (name : String) (attrs : List (String × String))
  /-- A tag whose children stand on lines of their own. -/
  | block (name : String) (attrs : List (String × String)) (children : List Markup)
  /-- A tag whose children stand on its own line. -/
  | inline (name : String) (attrs : List (String × String)) (children : List Markup)

namespace Markup

def escapeChar (c : Char) : List Char :=
  if c = '&' then ['&', 'a', 'm', 'p', ';']
  else if c = '<' then ['&', 'l', 't', ';']
  else if c = '>' then ['&', 'g', 't', ';']
  else if c = '"' then ['&', 'q', 'u', 'o', 't', ';']
  else [c]

def escape (s : String) : List Char := s.toList.flatMap escapeChar

def writeAttr (attr : String × String) : List Char :=
  ' ' :: attr.1.toList ++ '=' :: '"' :: escape attr.2 ++ ['"']

/-- A name and attributes as they stand between angle brackets. -/
def writeHead (name : String) (attrs : List (String × String)) : List Char :=
  name.toList ++ attrs.flatMap writeAttr

def opening (name : String) (attrs : List (String × String)) : List Char :=
  '<' :: writeHead name attrs ++ ['>']

def closing (name : String) : List Char := '<' :: '/' :: name.toList ++ ['>']

def selfClosing (name : String) (attrs : List (String × String)) : List Char :=
  '<' :: writeHead name attrs ++ ['/', '>']

def indent (depth : Nat) : List Char := List.replicate (2 * depth) ' '

mutual

/-- Markup within a line. -/
def write : Markup → List Char
  | text content => escape content
  | void name attrs => selfClosing name attrs
  | block name attrs children | inline name attrs children =>
    opening name attrs ++ writeAll children ++ closing name

def writeAll : List Markup → List Char
  | [] => []
  | m :: rest => write m ++ writeAll rest

end

mutual

/-- Markup on lines of its own. -/
def writeLines (depth : Nat) : Markup → List Char
  | text content => indent depth ++ escape content ++ ['\n']
  | void name attrs => indent depth ++ selfClosing name attrs ++ ['\n']
  | block name attrs children =>
    indent depth ++ opening name attrs ++ '\n' :: writeAllLines (depth + 1) children ++
      indent depth ++ closing name ++ ['\n']
  | inline name attrs children =>
    indent depth ++ opening name attrs ++ writeAll children ++ closing name ++ ['\n']

def writeAllLines (depth : Nat) : List Markup → List Char
  | [] => []
  | m :: rest => writeLines depth m ++ writeAllLines depth rest

end

end Markup
end Tiered
