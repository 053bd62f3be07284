import Tiered.Proofs.Dot.Places

/-!
# Missing targets

An edge operator behind which no endpoint begins misses its target. A target that is there and
misses something itself is reported in the same words.

* `TargetMisses.not_endsInOperator`: an edge operator stands right before a missing target, and not
  before what is missing in a target;
* `item_failed_of_endpoint`, `item_failed_of_target`: what an endpoint misses, where it begins a
  statement and where an edge leads to it;
* `ofDot_missingTarget`: what the report of a missing target says, and for which targets it is made.
-/
namespace Tiered.Dot

theorem not_endsInOperator {us : List Token} {s r : List Char} (hc : Consumes us s r)
    (hus : NothingDue us) : ¬ EndsInOperator s r := by
  rintro ⟨vs, hvs⟩
  rw [hc.unique hvs] at hus
  exact hus (by simp)

/-- Where a target misses something, no edge operator stands right before the place. -/
theorem TargetMisses.not_endsInOperator {s r : List Char} (h : TargetMisses s r) :
    ¬ EndsInOperator s r := by
  obtain ⟨u, depth, w, ⟨us, hop⟩, hu, -, hread⟩ := h
  obtain ⟨vs, hvs, hne⟩ := endpoint_fails (block_fails depth) hu hread
  have hdue : NothingDue vs := hvs.due w rfl
  exact Dot.not_endsInOperator (hop.trans hvs.consumes)
    (hdue.append_of_ne_nil (hne w rfl).1 _)

theorem Misses.endsInOperator_iff {s r : List Char} (h : Misses s r) :
    EndsInOperator s r ↔ ¬ TargetMisses s r := by
  obtain ⟨hop, -⟩ | hmisses := h
  · exact ⟨fun _ hmisses => hmisses.not_endsInOperator hop, fun _ => hop⟩
  · exact ⟨fun hop => absurd hop hmisses.not_endsInOperator, fun hnot => absurd hmisses hnot⟩

theorem Misses.not_beginsEndpoint {s r : List Char} (h : Misses s r) (hop : EndsInOperator s r) :
    ¬ BeginsEndpoint r := by
  obtain ⟨-, hnone⟩ | hmisses := h
  · exact hnone
  · exact absurd hop hmisses.not_endsInOperator

theorem message_eq_missingTarget {fault : Fault} :
    fault.message = "edge is missing its target" ↔ fault = .missingTarget := by
  constructor
  · cases fault with
    | wanted w => cases w <;> decide
    | _ => decide
  · rintro rfl
    rfl

/-! ## The same endpoint as a statement and as a target -/

section Reported

variable {b : BlockReader} {u : List Char} {f : Failure}

theorem many_failed {α : Type} {item : Reader? α} {h : Advances item} {s : List Char}
    (hs : item s = .error f) : many item h s = .error f := by
  rw [many]
  split
  · next he =>
    rw [hs] at he
    cases he
    rfl
  · next he => rw [hs] at he; cases he
  · next he => rw [hs] at he; cases he

theorem chain_failed (h : endpoint? b u = .error f) : chain b u = .error f := by
  rw [chain, h]
  rfl

/-- No endpoint begins with a keyword but `subgraph`. -/
theorem endpoint?_keyword {w behind : List Char} {k : Keyword} (hw : word? u = some (w, behind))
    (hk : keyword? w = some k) (hne : k ≠ .subgraph) : endpoint? b u = .ok none := by
  have hsubgraph : subgraph? b u = .ok none := by
    simp [subgraph?, hw, hk, hne]
  have hid : id? u = .ok none := by
    rw [id?_of_token? (word?_iff.mp hw), idFrom, hk]
    rfl
  rw [endpoint?, hsubgraph]
  simp [nodeId?, hid]

theorem stmt_failed (h : endpoint? b u = .error f) : stmt b u = .error f := by
  unfold stmt
  split
  · exact chain_failed h
  · next w behind hw =>
    have hother : ∀ k, keyword? w = some k → k ≠ .subgraph → False := by
      intro k hk hne
      rw [endpoint?_keyword hw hk hne] at h
      cases h
    split
    · next hk => exact (hother _ hk (by decide)).elim
    · next hk => exact (hother _ hk (by decide)).elim
    · next hk => exact (hother _ hk (by decide)).elim
    · next hk => exact (hother _ hk (by decide)).elim
    · next hk => exact (hother _ hk (by decide)).elim
    · exact chain_failed h
    · exact chain_failed h

theorem item_failed {s : List Char} (hs : skipBlanks s = .ok u) (h : stmt b u = .error f)
    (hne : ∀ c ∈ u.head?, c ≠ '\x7d' ∧ c ≠ ';') (hnil : u ≠ []) : stmt? b s = .error f := by
  rw [stmt?, hs, ok_bind]
  split
  · exact absurd rfl hnil
  · exact absurd rfl (hne _ rfl).1
  · exact absurd rfl (hne _ rfl).2
  · rw [h]
    rfl

theorem endpoint?_stop {c : Char} (hc : c = '\x7d' ∨ c = ';') (s : List Char) :
    endpoint? b (c :: s) = .ok none := by
  obtain rfl | rfl := hc <;> rfl

/-- What an endpoint misses is missing in a statement that begins with it. -/
theorem item_failed_of_endpoint (hu : skipBlanks u = .ok u) (h : endpoint? b u = .error f) :
    stmt? b u = .error f := by
  apply item_failed hu (stmt_failed h)
  · intro c hc
    obtain ⟨s, rfl⟩ := List.head?_eq_some_iff.mp hc
    constructor
    all_goals
      rintro rfl
      rw [endpoint?_stop (by decide)] at h
      cases h
  · rintro rfl
    cases h

/-- As a target, it misses a target. -/
theorem item_failed_of_target (hu : skipBlanks u = .ok u) (h : endpoint? b u = .error f) :
    stmt? b ('a' :: '-' :: '>' :: u) = .error f.inTarget := by
  have hop : skipBlanks ('-' :: '>' :: u) = .ok ('-' :: '>' :: u) := skipBlanks_stop (by decide) _
  have hfirst : endpoint? b ('a' :: '-' :: '>' :: u) =
      .ok (some (.node "a", '-' :: '>' :: u)) := by
    have hsubgraph : subgraph? b ('a' :: '-' :: '>' :: u) = .ok none := rfl
    have hid : id? ('a' :: '-' :: '>' :: u) = .ok (some ("a", '-' :: '>' :: u)) := rfl
    simp [endpoint?, hsubgraph, nodeId?, hid, skipAttachments_none hop (by decide)]
  have htarget : target? b ('-' :: '>' :: u) = .error f.inTarget := by
    rw [target?, hop]
    simp only [ok_bind, edgeOp?]
    rw [hu, ok_bind, h]
    rfl
  have htargets : many (target? b) (target_advances b) ('-' :: '>' :: u) = .error f.inTarget :=
    many_failed htarget
  have hchain : chain b ('a' :: '-' :: '>' :: u) = .error f.inTarget := by
    simp [chain, hfirst, hop, htargets]
    rfl
  exact item_failed (skipBlanks_stop (by decide) _) hchain (by simp) (by simp)

/-- What a first statement misses is missing in the text. -/
theorem document_failed (h : stmt? (block maxNesting) u = .error f) :
    document ("digraph\x7b".toList ++ u) = .error f := by
  have hstart : skipBlanks ("digraph\x7b".toList ++ u) = .ok ("digraph\x7b".toList ++ u) :=
    skipBlanks_stop (by decide) _
  have hword : word? ("digraph\x7b".toList ++ u) = some ("digraph".toList, '\x7b' :: u) :=
    word?_append (w := "digraph".toList) (c := '\x7b') (by decide) (by decide) (by decide) u
  have hheader : header ("digraph\x7b".toList ++ u) = .ok ((false, true), '\x7b' :: u) := by
    have hkeyword : keyword? "digraph".toList = some .digraph := rfl
    rw [header, hstart, ok_bind, hword]
    simp only [hkeyword, header.kind]
    rfl
  have hbrace : skipBlanks ('\x7b' :: u) = .ok ('\x7b' :: u) := skipBlanks_stop (by decide) u
  have hbody : (block (maxNesting + 1)).read u = .error f := by
    show statements (block maxNesting) u = .error f
    rw [statements, many_failed h]
    rfl
  rw [document, hheader]
  simp only [ok_bind, hbrace, id?_brace, symbol_eq, hbody]
  rfl

end Reported

/-! ## Reports -/

/-- An error that is found in a text has its message and its place. -/
theorem reported {source : String} {f : Failure} (h : document source.toList = .error f) :
    ∃ e, Graph.ofDot source = .error e ∧ e.message = f.fault.message ∧
      e.offset + utf8Size f.rest = source.utf8ByteSize := by
  obtain ⟨before, e, hbefore, he, hmessage, hoffset, -⟩ := located h
  refine ⟨e, he, hmessage, ?_⟩
  rw [hoffset, ← utf8Size_append, ← hbefore, utf8Size_toList]

theorem inTarget_missingTarget_iff {f : Failure} :
    f.inTarget.fault = .missingTarget ↔ f.fault = .missingTarget ∨ ∃ w, f.fault = .wanted w := by
  obtain ⟨w, hf, hin⟩ | ⟨hplain, hin⟩ := inTarget_cases f
  · rw [hin]
    exact ⟨fun _ => .inr ⟨w, by rw [hf]⟩, fun _ => rfl⟩
  · rw [hin]
    refine ⟨.inl, fun h => h.resolve_right ?_⟩
    rintro ⟨w, hw⟩
    exact hplain w hw

theorem rest_inTarget (f : Failure) : f.inTarget.rest = f.rest := by
  obtain ⟨w, -, hin⟩ | ⟨-, hin⟩ := inTarget_cases f <;> rw [hin]

/-- **What is missing in a target is reported as a missing target.** In a text that is reported to
have an edge without a target, an edge operator stands right before the place, and no endpoint
begins there, if and only if there is no target before the place that misses something there.
Whatever an endpoint misses is reported as a missing target where an edge leads to it, and as what
it is, at the same place, where the endpoint begins a statement. -/
theorem ofDot_missingTarget {source : String} {e : SyntaxError}
    (h : Graph.ofDot source = .error e) :
    (e.message = "edge is missing its target" →
      ∃ before rest, source.toList = before ++ rest ∧ utf8Size before = e.offset ∧
        (EndsInOperator source.toList rest ↔ ¬ TargetMisses source.toList rest) ∧
        (EndsInOperator source.toList rest → ¬ BeginsEndpoint rest)) ∧
    ∀ (u : String) (f : Failure), source = "digraph\x7ba->" ++ u →
      skipBlanks u.toList = .ok u.toList → endpoint? (block maxNesting) u.toList = .error f →
      (e.message = "edge is missing its target" ↔
        f.fault = .missingTarget ∨ ∃ w, f.fault = .wanted w) ∧
      ∃ e', Graph.ofDot ("digraph\x7b" ++ u) = .error e' ∧ e'.message = f.fault.message ∧
        e'.offset + 3 = e.offset := by
  constructor
  · intro hmessage
    obtain ⟨f, hf⟩ := document_of_ofDot h
    obtain ⟨us, hus⟩ := document_fails hf
    obtain ⟨before, hbefore, hlocate, hoffset⟩ := ofDot_of_error hf
    obtain rfl := Except.error.inj (h.symm.trans hlocate)
    have hmisses := hus.missing (message_eq_missingTarget.mp hmessage)
    exact ⟨before, f.rest, hbefore, hoffset.symm, hmisses.endsInOperator_iff,
      hmisses.not_beginsEndpoint⟩
  · rintro u f rfl hu hread
    have htarget : document ("digraph\x7ba->" ++ u).toList = .error f.inTarget := by
      rw [String.toList_append]
      exact document_failed (item_failed_of_target hu hread)
    have hstatement : document ("digraph\x7b" ++ u).toList = .error f := by
      rw [String.toList_append]
      exact document_failed (item_failed_of_endpoint hu hread)
    obtain ⟨e₁, he₁, hmessage₁, hoffset₁⟩ := reported htarget
    obtain rfl := Except.error.inj (h.symm.trans he₁)
    obtain ⟨e', he', hmessage', hoffset'⟩ := reported hstatement
    refine ⟨?_, e', he', hmessage', ?_⟩
    · rw [hmessage₁, message_eq_missingTarget, inTarget_missingTarget_iff]
    · rw [rest_inTarget, String.utf8ByteSize_append] at hoffset₁
      rw [String.utf8ByteSize_append] at hoffset'
      have hlong : "digraph\x7ba->".utf8ByteSize = "digraph\x7b".utf8ByteSize + 3 := by decide
      omega

/-- An edge whose target has a colon behind it and no port. -/
def portless : String := "digraph\x7ba->b:;\x7d"

theorem endpoint?_portless : endpoint? (block maxNesting) "b:;\x7d".toList =
    .error ⟨.wanted .attachment, [';', '\x7d']⟩ := by
  have hsubgraph : subgraph? (block maxNesting) "b:;\x7d".toList = .ok none := rfl
  have hid : id? "b:;\x7d".toList = .ok (some ("b", [':', ';', '\x7d'])) := rfl
  have hcolon : skipBlanks [':', ';', '\x7d'] = .ok [':', ';', '\x7d'] :=
    skipBlanks_stop (by decide) _
  have hstop : skipBlanks [';', '\x7d'] = .ok [';', '\x7d'] := skipBlanks_stop (by decide) _
  have hport : id .attachment [';', '\x7d'] = .error ⟨.wanted .attachment, [';', '\x7d']⟩ := rfl
  rw [endpoint?, hsubgraph, ok_bind, nodeId?, hid]
  simp only [ok_bind, skipAttachments, hcolon, hstop, hport]
  rfl

theorem ofDot_portless : Graph.ofDot portless =
    .error ⟨"edge is missing its target", 13, 1, 14, ";\x7d"⟩ := by decide +kernel

/-- As a statement, the target misses a port; as a target, it is missing. -/
theorem ofDot_missingTarget_portless :
    (∃ before rest, portless.toList = before ++ rest ∧ utf8Size before = 13 ∧
      (EndsInOperator portless.toList rest ↔ ¬ TargetMisses portless.toList rest) ∧
      (EndsInOperator portless.toList rest → ¬ BeginsEndpoint rest)) ∧
    ∃ e', Graph.ofDot "digraph\x7bb:;\x7d" = .error e' ∧ e'.message = "expected port name" ∧
      e'.offset = 10 := by
  obtain ⟨hplace, hreports⟩ := ofDot_missingTarget ofDot_portless
  obtain ⟨-, e', he', hmessage, hoffset⟩ :=
    hreports "b:;\x7d" _ rfl (skipBlanks_stop (by decide) _) endpoint?_portless
  exact ⟨hplace rfl, e', he', hmessage, Nat.add_right_cancel hoffset⟩

/-- The text before the place does not end in an edge operator, and the target is there. -/
theorem portless_target_present :
    Graph.ofDot portless = .error ⟨"edge is missing its target", 13, 1, 14, ";\x7d"⟩ ∧
      portless.toList = "digraph\x7ba->b:".toList ++ [';', '\x7d'] ∧
      utf8Size "digraph\x7ba->b:".toList = 13 ∧
      ¬ EndsInOperator portless.toList [';', '\x7d'] ∧
      TargetMisses portless.toList [';', '\x7d'] := by
  have hword : Consumes [.word "digraph".toList] portless.toList "\x7ba->b:;\x7d".toList :=
    .first (skipBlanks_stop (by decide) _) rfl
  have hbrace : Consumes [.symbol '\x7b'] "\x7ba->b:;\x7d".toList "a->b:;\x7d".toList :=
    .first (skipBlanks_stop (by decide) _) rfl
  have hsource : Consumes [.word ['a']] "a->b:;\x7d".toList "->b:;\x7d".toList :=
    .first (skipBlanks_stop (by decide) _) rfl
  have hop : Consumes [.edgeOp] "->b:;\x7d".toList "b:;\x7d".toList :=
    .first (skipBlanks_stop (by decide) _) rfl
  have htarget : Consumes [.word ['b']] "b:;\x7d".toList [':', ';', '\x7d'] :=
    .first (skipBlanks_stop (by decide) _) rfl
  have hcolon : Consumes [.symbol ':'] [':', ';', '\x7d'] [';', '\x7d'] :=
    .first (skipBlanks_stop (by decide) _) rfl
  have hedge := (hword.trans (hbrace.trans hsource)).trans hop
  refine ⟨ofDot_portless, rfl, by decide, ?_, ?_⟩
  · exact not_endsInOperator (hedge.trans (htarget.trans hcolon)) (by simp [NothingDue])
  · exact ⟨_, maxNesting, .attachment, ⟨_, hedge⟩, skipBlanks_stop (by decide) _,
      ⟨_, _, rfl, rfl⟩, endpoint?_portless⟩

end Tiered.Dot
