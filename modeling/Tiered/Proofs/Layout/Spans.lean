import Tiered.Dot.Reader
import Tiered.Proofs.Layout.Ranks

/-!
# Spans that are asked for in writing

An edge asks for ranks by a numeral, which may be of any length and have blanks around it.

* `natural?_trim`: a numeral is read as the number it denotes if that is below `2 ^ 64`, and else
  as none;
* `spanOf_denotes`: so it asks for as many ranks as it says, between one and `maxSpan`, up to that
  bound, and beyond it for a single one;
* `layout_askedSpan`: the ends of the edge are that far apart.
-/

namespace Tiered

namespace Text

theorem dropWhile_blanks {before core : List Char} (hbefore : before.all isBlank = true)
    (hcore : ∀ c ∈ core.head?, isBlank c = false) :
    (before ++ core).dropWhile isBlank = core := by
  rw [List.dropWhile_append_of_pos (List.all_eq_true.mp hbefore)]
  cases core with
  | nil => rfl
  | cons c core => rw [List.dropWhile_cons_of_neg (by simpa using hcore c rfl)]

/-- Only the blanks around a text that begins and ends with none are taken away. -/
theorem strip_blanks {before core after : List Char} (hbefore : before.all isBlank = true)
    (hafter : after.all isBlank = true) (hne : core ≠ [])
    (hcore : ∀ c ∈ core, isBlank c = false) : strip (before ++ (core ++ after)) = core := by
  have hfirst : ∀ c ∈ (core ++ after).head?, isBlank c = false := by
    intro c hc
    rw [List.head?_append_of_ne_nil _ hne] at hc
    exact hcore c (List.mem_of_mem_head? hc)
  have hlast : ∀ c ∈ core.reverse.head?, isBlank c = false := fun c hc =>
    hcore c (List.mem_reverse.mp (List.mem_of_mem_head? hc))
  have hafter : after.reverse.all isBlank = true := by rw [List.all_reverse, hafter]
  rw [strip, dropWhile_blanks hbefore hfirst, List.reverse_append, dropWhile_blanks hafter hlast,
    List.reverse_reverse]

end Text

namespace Numeral

/-- A text is a run of decimal digits that denote `k`, with blanks around it. -/
def Denotes (text : String) (k : Nat) : Prop :=
  ∃ before ds after : List Char, text.toList = before ++ (ds ++ after) ∧
    before.all Text.isBlank = true ∧ after.all Text.isBlank = true ∧
    ds ≠ [] ∧ ds.all Char.isDigit = true ∧ ofDigits ds = k

theorem not_isBlank_of_isDigit {c : Char} (h : c.isDigit = true) : Text.isBlank c = false := by
  have hdigit : 48 ≤ c.toNat ∧ c.toNat ≤ 57 := by
    simpa [Char.isDigit, UInt32.le_iff_toNat_le] using h
  simp only [Text.isBlank, Bool.or_eq_false_iff, Bool.and_eq_false_iff, decide_eq_false_iff_not,
    beq_eq_false_iff_ne]
  omega

/-- A numeral is read as what it denotes as long as that fits a machine word. -/
theorem natural?_trim {text : String} {k : Nat} (h : Denotes text k) :
    natural? (Text.trim text) = if k < 2 ^ 64 then some k else none := by
  obtain ⟨before, ds, after, htext, hbefore, hafter, hne, hds, rfl⟩ := h
  have hblank : ∀ c ∈ ds, Text.isBlank c = false := fun c hc =>
    not_isBlank_of_isDigit (List.all_eq_true.mp hds c hc)
  have htrim : (Text.trim text).toList = ds := by
    rw [Text.trim, String.toList_ofList, htext, Text.strip_blanks hbefore hafter hne hblank]
  -- The reader takes a plus sign along, but digits do not begin with one.
  have hsign : ∀ rest, ds ≠ '+' :: rest := by
    rintro rest rfl
    exact absurd (List.all_eq_true.mp hds '+' List.mem_cons_self) (by decide)
  have hread : natural? (Text.trim text) =
      if !ds.isEmpty && ds.all Char.isDigit && ofDigits ds < 1 <<< 64 then some (ofDigits ds)
      else none := by
    unfold natural?
    rw [htrim]
    split
    · next rest => exact absurd rfl (hsign rest)
    · rfl
  have hfilled : ds.isEmpty = false := by simpa using hne
  rw [hread, hfilled, hds]
  simp only [Bool.not_false, Bool.true_and, decide_eq_true_eq, Nat.one_shiftLeft]

end Numeral

namespace Layout

open Numeral (Denotes)

/-- How many ranks a number asks for that is written out: as many as it says, between one and
`maxSpan`, but one if it does not fit a machine word. -/
def askedSpan (k : Nat) : Nat := if k < 2 ^ 64 then min (max k 1) maxSpan else 1

theorem spanOf_denotes {text : String} {k : Nat} (h : Denotes text k) :
    spanOf (some text) = askedSpan k := by
  simp only [spanOf, Option.bind_some, Numeral.natural?_trim h, askedSpan]
  split
  · rfl
  · rfl

/-- A number asks for what it says, cut to the bounds, if and only if it fits a machine word. -/
theorem askedSpan_eq_iff (k : Nat) : askedSpan k = min (max k 1) maxSpan ↔ k < 2 ^ 64 := by
  rw [askedSpan, maxSpan]
  split <;> omega

/-- Up to there, more is asked for by more. -/
theorem askedSpan_mono {j k : Nat} (hjk : j ≤ k) (hk : k < 2 ^ 64) : askedSpan j ≤ askedSpan k := by
  rw [askedSpan, askedSpan, maxSpan]
  split <;> omega

end Layout

namespace Graph

open Layout
open Numeral (Denotes)

/-- **Spans in writing.** An edge that writes out the number `k` asks for `askedSpan k` ranks. That
is `k`, cut to the bounds, if and only if `k` fits a machine word, and up to there more is asked for
by more. If the edge is no loop, its ends are that far apart. They are the nodes that its ids name,
unless the graph itself repeats an id. -/
theorem layout_askedSpan {K : Type} [Scalar K] {g : Graph} {settings : Settings K}
    {sizer : Sizer K} {l : Layout K} (h : g.layout settings sizer = .ok l) {e : RoutedEdge K}
    (he : e ∈ l.edges) (hne : e.source ≠ e.target) {text : String} {k : Nat}
    (htext : e.attrs.get? "minlen" = some text) (hk : Denotes text k) :
    spanOf (some text) = askedSpan k ∧ (askedSpan k = min (max k 1) maxSpan ↔ k < 2 ^ 64) ∧
      (k < 2 ^ 64 → ∀ j ≤ k, askedSpan j ≤ askedSpan k) ∧
      ∃ a ∈ l.nodes, ∃ b ∈ l.nodes, a.id = e.source ∧ b.id = e.target ∧
        (g.nodes.Nodup → l.node? e.source = some a ∧ l.node? e.target = some b) ∧
        if e.reversed then b.rank + askedSpan k ≤ a.rank else a.rank + askedSpan k ≤ b.rank := by
  refine ⟨spanOf_denotes hk, askedSpan_eq_iff k, fun hk j hjk => askedSpan_mono hjk hk, ?_⟩
  obtain ⟨-, ⟨-, rfl⟩ | ⟨sizes, arcs, hsizes, harcs, rfl⟩⟩ := Graph.layout_eq_ok h
  · cases he
  · have hsizes : sizes.length = g.nodes.length := hsizes.length_eq.symm
    obtain ⟨a, ha, b, hb, hida, hidb, hspan⟩ := exists_span_arranged hsizes harcs he hne
    rw [htext, spanOf_denotes hk] at hspan
    refine ⟨a, ha, b, hb, hida, hidb, fun hd => ?_, hspan⟩
    rw [← hida, ← hidb]
    exact ⟨node?_of_mem hsizes hd ha, node?_of_mem hsizes hd hb⟩

/-- An edge that asks for more ranks than there may be, with zeros and blanks around the number. -/
def farApart : Graph :=
  { directed := true, nodes := ["a", "b"]
    edges := [⟨"a", "b", .ofList [("minlen", " 00250\t")]⟩] }

theorem layout_askedSpan_farApart : Denotes " 00250\t" 250 ∧
    ∃ l : Layout ℚ, farApart.layout .standard (fun _ _ => (40, 20)) = .ok l ∧
      ∃ e ∈ l.edges, e.source ≠ e.target ∧ e.attrs.get? "minlen" = some " 00250\t" ∧
        ∃ a ∈ l.nodes, ∃ b ∈ l.nodes, a.id = "a" ∧ b.id = "b" ∧
          if e.reversed then b.rank + 100 ≤ a.rank else a.rank + 100 ≤ b.rank := by
  let l : Layout ℚ := arranged farApart .standard [(40, 20), (40, 20)] [(0, 1)]
  have hlayout : farApart.layout (.standard : Settings ℚ) (fun _ _ => (40, 20)) = .ok l := rfl
  have hedges : l.edges.map (·.edge) = farApart.edges := edges_arranged rfl
  have hmem : (⟨"a", "b", .ofList [("minlen", " 00250\t")]⟩ : Edge) ∈ l.edges.map (·.edge) := by
    rw [hedges]
    exact List.mem_singleton_self _
  obtain ⟨e, he, hedge⟩ := List.mem_map.mp hmem
  obtain ⟨hsource, htarget, hattrs⟩ := Edge.mk.inj hedge
  have hasks : Denotes " 00250\t" 250 :=
    ⟨[' '], "00250".toList, ['\t'], by decide, by decide, by decide, by decide, by decide,
      by decide⟩
  have hne : e.source ≠ e.target := by
    rw [hsource, htarget]
    decide
  have htext : e.attrs.get? "minlen" = some " 00250\t" := by
    rw [hattrs]
    decide
  obtain ⟨-, -, -, a, ha, b, hb, hida, hidb, -, hspan⟩ :=
    layout_askedSpan hlayout he hne htext hasks
  exact ⟨hasks, l, hlayout, e, he, hne, htext, a, ha, b, hb, hida.trans hsource,
    hidb.trans htarget, hspan⟩

/-- An edge that asks for one rank more than a machine word holds. -/
def beyondWord : String := "digraph\x7ba->b[minlen=18446744073709551616]\x7d"

/-- It gets a single rank. -/
theorem layout_single_rank : Denotes "18446744073709551616" (2 ^ 64) ∧
    ∃ g, Graph.ofDot beyondWord = .ok g ∧
      g.edges = [⟨"a", "b", .ofList [("minlen", "18446744073709551616")]⟩] ∧
      ∃ l : Layout ℚ, g.layout .standard (fun _ _ => (10, 10)) = .ok l ∧
        ∃ a b, l.node? "a" = some a ∧ l.node? "b" = some b ∧ a.rank = 0 ∧ b.rank = 1 ∧
          ¬ a.rank + min (max (2 ^ 64) 1) 100 ≤ b.rank ∧
          ¬ b.rank + min (max (2 ^ 64) 1) 100 ≤ a.rank := by
  let g : Graph :=
    { directed := true, nodes := ["a", "b"]
      edges := [⟨"a", "b", .ofList [("minlen", "18446744073709551616")]⟩] }
  let l : Layout ℚ := arranged g .standard [(10, 10), (10, 10)] [(0, 1)]
  have hg : Graph.ofDot beyondWord = .ok g := by decide +kernel
  have hlayout : g.layout (.standard : Settings ℚ) (fun _ _ => (10, 10)) = .ok l := rfl
  have hranks : (nodeRanks g [(0, 1)]).getD 0 0 = 0 ∧ (nodeRanks g [(0, 1)]).getD 1 0 = 1 := by
    decide +kernel
  have hd : g.nodes.Nodup := by decide
  have hsizes : [((10 : ℚ), (10 : ℚ)), (10, 10)].length = g.nodes.length := rfl
  have hfirst : g.nodes[0]? = some "a" := rfl
  have hsecond : g.nodes[1]? = some "b" := rfl
  obtain ⟨a, ha, hida, hranka⟩ := exists_node .standard [(0, 1)] hsizes hfirst
  obtain ⟨b, hb, hidb, hrankb⟩ := exists_node .standard [(0, 1)] hsizes hsecond
  have hfinda : l.node? "a" = some a := hida ▸ node?_of_mem hsizes hd ha
  have hfindb : l.node? "b" = some b := hidb ▸ node?_of_mem hsizes hd hb
  have hasks : Denotes "18446744073709551616" (2 ^ 64) :=
    ⟨[], "18446744073709551616".toList, [], by decide, rfl, rfl, by decide, by decide, by decide⟩
  rw [hranks.1] at hranka
  rw [hranks.2] at hrankb
  exact ⟨hasks, g, hg, rfl, l, hlayout, a, b, hfinda, hfindb, hranka, hrankb, by omega, by omega⟩

end Graph
end Tiered
