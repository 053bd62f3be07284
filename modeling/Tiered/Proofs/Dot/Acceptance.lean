import Tiered.Dot.Reader
import Tiered.Proofs.Dot.Completeness
import Tiered.Proofs.Dot.Soundness

/-!
# The texts that are read

* `document_iff`: a document is read from a text if and only if it is a syntax tree of the text;
* `ofDot_iff_isDocument`: a graph is read from the texts that have a syntax tree, which is then the
  only one, and the graph is what it means.
-/
namespace Tiered

open Dot

theorem Dot.document_iff {s : List Char} {d : Document} : document s = .ok d ↔ IsDocument s d :=
  ⟨document_sound, document_complete⟩

theorem Dot.IsDocument.unique {s : List Char} {d e : Document} (hd : IsDocument s d)
    (he : IsDocument s e) : d = e := by
  have h := document_complete hd
  rw [document_complete he] at h
  exact (Except.ok.inj h).symm

namespace Graph

/-- **The texts that are read.** A text is read if and only if it has a syntax tree; the graph that
is read is the one that the tree means, and there is one tree only. -/
theorem ofDot_iff_isDocument (source : String) :
    ((∃ g, Graph.ofDot source = .ok g) ↔ ∃ d, IsDocument source.toList d) ∧
    (∀ d, IsDocument source.toList d → Graph.ofDot source = .ok d.graph) ∧
    ∀ d e, IsDocument source.toList d → IsDocument source.toList e → d = e := by
  have hgraph : ∀ d, IsDocument source.toList d → Graph.ofDot source = .ok d.graph := by
    intro d hd
    rw [Graph.ofDot, document_iff.mpr hd]
  refine ⟨?_, hgraph, fun d e hd he => hd.unique he⟩
  constructor
  · rintro ⟨g, hg⟩
    unfold Graph.ofDot at hg
    split at hg
    · rename_i d hd
      exact ⟨d, document_iff.mp hd⟩
    · cases hg
  · rintro ⟨d, hd⟩
    exact ⟨d.graph, hgraph d hd⟩

/-- A text whose tokens stand close together. -/
def terseText : String :=
  "STRICT graph\x7ba--\x7b-.5;subgraph c\x7bd\x7d\x7d[x=1y=<z>,]node[]" ++
    "e=-1/**/a:n:s->b--\"u\"+\"v\";;\x7d"

theorem ofDot_iff_isDocument_terse : ∃ d g, IsDocument terseText.toList d ∧
    Graph.ofDot terseText = .ok g ∧ g = d.graph ∧
    g.nodes = ["a", "-.5", "d", "b", "uv"] ∧
    ∀ e, IsDocument terseText.toList e → e = d := by
  have hread : (Graph.ofDot terseText).toOption.map Graph.nodes =
      some ["a", "-.5", "d", "b", "uv"] := by decide +kernel
  obtain ⟨hiff, hgraph, hunique⟩ := ofDot_iff_isDocument terseText
  obtain ⟨g, hg, hnodes⟩ : ∃ g, Graph.ofDot terseText = .ok g ∧
      g.nodes = ["a", "-.5", "d", "b", "uv"] := by
    cases hr : Graph.ofDot terseText with
    | error e => rw [hr] at hread; cases hread
    | ok g =>
      rw [hr] at hread
      exact ⟨g, rfl, Option.some.inj hread⟩
  obtain ⟨d, hd⟩ := hiff.mp ⟨g, hg⟩
  have hdg := hgraph d hd
  rw [hg] at hdg
  exact ⟨d, g, hd, hg, Except.ok.inj hdg, hnodes, fun e he => hunique e d he hd⟩

end Graph
end Tiered
