import Tiered.Dot.Parser.Document
import Tiered.Dot.Meaning
import Tiered.Dot.SyntaxError

/-!
Reading a graph from its DOT text.
-/
namespace Tiered

/-- The graph that a DOT text means, or the first place where it is no DOT text. -/
def Graph.ofDot (source : String) : Except Dot.SyntaxError Graph :=
  match Dot.document source.toList with
  | .ok document => .ok document.graph
  | .error failure =>
    let offset := Dot.utf8Size source.toList - Dot.utf8Size failure.rest
    .error (.locate source offset failure.fault.message)

end Tiered
