/-!
Syntax trees of DOT texts. Where an edge is attached to a node, and the names and the attribute
lists of subgraphs, say nothing about the graph and are not kept.
-/
namespace Tiered.Dot

/-- Attributes in the order they are written. -/
abbrev AttrList := List (String × String)

/-- What a statement of defaults is about. -/
inductive Target where
  | graph
  | node
  | edge
  deriving DecidableEq, Repr

mutual

inductive Stmt where
  | node (id : String) (attrs : AttrList)
  /-- A chain of two or more endpoints. -/
  | edges (ends : List Endpoint) (attrs : AttrList)
  | defaults (target : Target) (attrs : AttrList)
  | block (body : List Stmt)

inductive Endpoint where
  | node (id : String)
  | block (body : List Stmt)

end

structure Document where
  strict : Bool
  directed : Bool
  name : Option String
  body : List Stmt

end Tiered.Dot
