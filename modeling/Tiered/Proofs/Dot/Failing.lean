import Mathlib.Data.List.Basic
import Tiered.Proofs.Dot.Completeness
import Tiered.Proofs.Dot.Soundness

/-!
# Where reading fails

* `NothingDue`: no phrase ends in an edge operator, so that nothing is due behind it;
* `Misses`: a text where the target of an edge is missing, or is there and misses something;
* `Explained`: what is known of a failure: which tokens are before it, that a missing target is
  reported in such a text only, and that what is left begins with no blank, unless there is a block
  too many;
* `endpoint_fails`, `stmt_fails`, `block_fails`: the failures of each reader are explained, those of
  blocks by induction on how deep they may lie within one another;
* `document_fails`: so are those of documents.
-/
namespace Tiered.Dot

/-! ## What is due behind a phrase -/

/-- Tokens that do not end in an edge operator, behind which its target would be due. -/
def NothingDue (us : List Token) : Prop := us.getLast? ≠ some .edgeOp

theorem NothingDue.append_of_ne_nil {vs : List Token} (h : vs ≠ []) (hvs : NothingDue vs)
    (us : List Token) : NothingDue (us ++ vs) := by
  rwa [NothingDue, List.getLast?_append_of_ne_nil us h]

theorem NothingDue.append {us vs : List Token} (hus : NothingDue us) (hvs : NothingDue vs) :
    NothingDue (us ++ vs) := by
  by_cases h : vs = []
  · rwa [h, List.append_nil]
  · exact hvs.append_of_ne_nil h us

theorem nothingDue_nil : NothingDue [] := by simp [NothingDue]

theorem nothingDue_singleton {k : Token} (h : k ≠ .edgeOp) : NothingDue [k] := by
  simpa [NothingDue] using h

theorem NothingDue.cons {k : Token} {us : List Token} (hk : k ≠ .edgeOp) (hus : NothingDue us) :
    NothingDue (k :: us) := (nothingDue_singleton hk).append hus

theorem IsJoined.nothingDue {us : List Token} {v : List Char} (h : IsJoined us v) :
    NothingDue us := by
  induction h with
  | nil => exact nothingDue_nil
  | cons _ ih => exact .cons (by simp) (.cons (by simp) ih)

theorem IsId.nothingDue {us : List Token} {a : String} (h : IsId us a) : NothingDue us := by
  cases h with
  | quoted hj => exact .cons (by simp) hj.nothingDue
  | markup | numeral | word => exact nothingDue_singleton (by simp)

theorem IsAttachments.nothingDue {n : Nat} {us : List Token} (h : IsAttachments n us) :
    NothingDue us := by
  induction h with
  | none => exact nothingDue_nil
  | cons hid _ ih => exact .cons (by simp) (hid.nothingDue.append ih)

theorem IsNodeId.nothingDue {us : List Token} {a : String} (h : IsNodeId us a) :
    NothingDue us := by
  obtain ⟨hid, hvs⟩ := h
  exact hid.nothingDue.append hvs.nothingDue

theorem IsSeparator.nothingDue {us : List Token} (h : IsSeparator us) : NothingDue us := by
  cases h with
  | none => exact nothingDue_nil
  | comma | semicolon => exact nothingDue_singleton (by simp)

theorem IsAttr.nothingDue {us : List Token} {a : String × String} (h : IsAttr us a) :
    NothingDue us := by
  obtain ⟨hkey, hvalue, hsep⟩ := h
  have hbehind := hvalue.nothingDue.append hsep.nothingDue
  exact hkey.nothingDue.append (.cons (by simp) hbehind)

theorem Many.nothingDue {α : Type} {Phrase : List Token → α → Prop}
    (hphrase : ∀ us a, Phrase us a → NothingDue us) {us : List Token} {as : List α}
    (h : Many Phrase us as) : NothingDue us := by
  induction h with
  | nil => exact nothingDue_nil
  | cons hus _ ih => exact (hphrase _ _ hus).append ih

theorem IsBracket.nothingDue {us : List Token} {attrs : AttrList} (h : IsBracket us attrs) :
    NothingDue us := by
  obtain ⟨hus⟩ := h
  simp [NothingDue, List.getLast?_cons]

theorem IsAttrLists.nothingDue {us : List Token} {attrs : AttrList} (h : IsAttrLists us attrs) :
    NothingDue us := by
  obtain ⟨hus⟩ := h
  exact hus.nothingDue fun _ _ => IsBracket.nothingDue

/-- A block ends in the brace that closes it. -/
theorem IsBlock.getLast? {depth : Nat} {us : List Token} {body : List Stmt}
    (h : IsBlock depth us body) : us.getLast? = some (.symbol '\x7d') := by
  cases depth with
  | zero => exact h.elim
  | succ depth =>
    obtain ⟨hus⟩ := h
    simp [List.getLast?_cons]

section Block

variable {depth : Nat}

theorem IsBlock.ends {us : List Token} {body : List Stmt} (h : IsBlock depth us body) :
    us ≠ [] ∧ NothingDue us := by
  constructor
  · rintro rfl
    simpa using h.getLast?
  · simp [NothingDue, h.getLast?]

theorem IsEndpoint.ends {us : List Token} {e : Endpoint}
    (h : IsEndpoint (IsBlock depth) us e) : us ≠ [] ∧ NothingDue us := by
  cases h with
  | node hid =>
    obtain ⟨t, vs, rfl, -⟩ := isNodeId_head hid
    exact ⟨List.cons_ne_nil _ _, hid.nothingDue⟩
  | block hus =>
    cases hus with
    | bare hus => exact hus.ends
    | headed _ hus => exact ⟨List.cons_ne_nil _ _, .append_of_ne_nil hus.ends.1 hus.ends.2 [_]⟩
    | named _ _ hus =>
      refine ⟨List.cons_ne_nil _ _, ?_⟩
      rw [← List.cons_append]
      exact .append_of_ne_nil hus.ends.1 hus.ends.2 _

theorem IsTarget.nothingDue {us : List Token} {e : Endpoint}
    (h : IsTarget (IsBlock depth) us e) : NothingDue us := by
  obtain ⟨hus⟩ := h
  exact .append_of_ne_nil hus.ends.1 hus.ends.2 [_]

theorem IsStmt.nothingDue {us : List Token} {st : Stmt} (h : IsStmt (IsBlock depth) us st) :
    NothingDue us := by
  cases h with
  | defaults _ hus => exact .cons (by simp) hus.nothingDue
  | setting hkey hvalue =>
    exact hkey.nothingDue.append (.cons (by simp) hvalue.nothingDue)
  | node hid hvs => exact hid.nothingDue.append hvs.nothingDue
  | block hus hvs => exact (IsEndpoint.block hus).ends.2.append hvs.nothingDue
  | edges hus hvs hws =>
    have htargets := hvs.nothingDue fun _ _ => IsTarget.nothingDue
    exact hus.ends.2.append (htargets.append hws.nothingDue)

theorem IsItem.nothingDue {us : List Token} {body : List Stmt}
    (h : IsItem (IsBlock depth) us body) : NothingDue us := by
  cases h with
  | semicolon => exact nothingDue_singleton (by simp)
  | stmt hus => exact hus.nothingDue

end Block

/-! ## Explained failures -/

/-- An endpoint begins with the first token of a text. -/
def BeginsEndpoint (s : List Char) : Prop :=
  ∃ k r, token? s = some (k, r) ∧ endpointStart k = true

/-- Of the tokens before a place, the last is an edge operator. -/
def EndsInOperator (s r : List Char) : Prop := ∃ us, Consumes (us ++ [.edgeOp]) s r

theorem EndsInOperator.behind {us : List Token} {s t r : List Char} (h : EndsInOperator t r)
    (hc : Consumes us s t) : EndsInOperator s r := by
  obtain ⟨vs, hvs⟩ := h
  have hall := hc.trans hvs
  rw [← List.append_assoc] at hall
  exact ⟨_, hall⟩

/-- An endpoint begins behind an edge operator, and misses something at `r`. -/
def TargetMisses (s r : List Char) : Prop :=
  ∃ u depth w, EndsInOperator s u ∧ skipBlanks u = .ok u ∧ BeginsEndpoint u ∧
    endpoint? (block depth) u = .error ⟨.wanted w, r⟩

theorem TargetMisses.behind {us : List Token} {s t r : List Char} (h : TargetMisses t r)
    (hc : Consumes us s t) : TargetMisses s r := by
  obtain ⟨u, depth, w, hop, hread⟩ := h
  exact ⟨u, depth, w, hop.behind hc, hread⟩

/-- A target is missing at `r`, or is there and misses something at `r`. -/
def Misses (s r : List Char) : Prop :=
  EndsInOperator s r ∧ ¬ BeginsEndpoint r ∨ TargetMisses s r

theorem Misses.behind {us : List Token} {s t r : List Char} (h : Misses t r)
    (hc : Consumes us s t) : Misses s r :=
  h.imp (fun hop => ⟨hop.1.behind hc, hop.2⟩) (·.behind hc)

/-- A text is at its end or goes on with a character that is not blank. -/
def Visible (s : List Char) : Prop := ∀ c ∈ s.head?, Text.isBlank c = false

theorem visible_cons {c : Char} (hc : Text.isBlank c = false) (s : List Char) :
    Visible (c :: s) := by
  intro d hd
  cases hd
  exact hc

theorem visible_of_skipBlanks {s u : List Char} (h : skipBlanks s = .ok u) : Visible u := by
  cases u with
  | nil => intro c hc; cases hc
  | cons c u => exact visible_cons (head_of_skipBlanks h) u

/-- A place is right behind an opening brace; the tokens before it end where the brace begins. -/
def BehindBrace (s r : List Char) : Prop := ∃ us, Consumes us s ('\x7b' :: r)

theorem BehindBrace.behind {us : List Token} {s t r : List Char} (h : BehindBrace t r)
    (hc : Consumes us s t) : BehindBrace s r := by
  obtain ⟨vs, hvs⟩ := h
  exact ⟨_, hc.trans hvs⟩

/-- What is known of a failure: the tokens before it, behind which nothing is due if it is a want,
how a target comes to be missing, and that what is left begins with no blank, unless the failure is
a block too many. -/
structure ExplainedBy (us : List Token) (s : List Char) (f : Failure) : Prop where
  consumes : Consumes us s f.rest
  due : ∀ w, f.fault = .wanted w → NothingDue us
  missing : f.fault = .missingTarget → Misses s f.rest
  stands : Visible f.rest ∨ f.fault = .nestedTooDeeply ∧ BehindBrace s f.rest

def Explained (s : List Char) (f : Failure) : Prop := ∃ us, ExplainedBy us s f

theorem ExplainedBy.visible {us : List Token} {s : List Char} {f : Failure}
    (h : ExplainedBy us s f) (hf : f.fault ≠ .nestedTooDeeply) : Visible f.rest :=
  h.stands.resolve_right fun hdeep => hf hdeep.1

theorem ExplainedBy.behind {us vs : List Token} {s t : List Char} {f : Failure}
    (h : ExplainedBy vs t f) (hc : Consumes us s t) (hus : NothingDue us) :
    ExplainedBy (us ++ vs) s f where
  consumes := hc.trans h.consumes
  due w hw := hus.append (h.due w hw)
  missing hf := (h.missing hf).behind hc
  stands := h.stands.imp_right fun hdeep => ⟨hdeep.1, hdeep.2.behind hc⟩

/-- Whatever is before a failure that is no want. -/
theorem ExplainedBy.behind_plain {us vs : List Token} {s t : List Char} {f : Failure}
    (h : ExplainedBy vs t f) (hc : Consumes us s t) (hf : ∀ w, f.fault ≠ .wanted w) :
    ExplainedBy (us ++ vs) s f where
  consumes := hc.trans h.consumes
  due w hw := absurd hw (hf w)
  missing hf := (h.missing hf).behind hc
  stands := h.stands.imp_right fun hdeep => ⟨hdeep.1, hdeep.2.behind hc⟩

theorem skipBlanks_fault {s : List Char} {f : Failure} (h : skipBlanks s = .error f) :
    f.fault = .unclosedComment ∧ Visible f.rest := by
  fun_induction skipBlanks s with
  | case1 | case7 => cases h
  | case2 _ ih | case3 _ ih | case4 _ _ _ ih | case6 _ _ _ _ _ _ ih => exact ih h
  | case5 => cases h; exact ⟨rfl, visible_cons (by decide) _⟩

namespace Explained

variable {us : List Token} {s t u : List Char} {f : Failure}

/-- What fails behind a phrase fails. -/
theorem behind (h : Explained t f) (hc : Consumes us s t) (hus : NothingDue us) :
    Explained s f := by
  obtain ⟨vs, hvs⟩ := h
  exact ⟨_, hvs.behind hc hus⟩

theorem skip (h : Explained u f) (hs : Dot.skipBlanks s = .ok u) : Explained s f :=
  h.behind (.blanks hs) nothingDue_nil

theorem symbol {c : Char} {r : List Char} (h : Explained r f) (hs : Dot.skipBlanks s = .ok (c :: r))
    (hc : c ∈ symbols) : Explained s f :=
  h.behind (.symbol hs hc) (nothingDue_singleton (by simp))

theorem word {w r : List Char} (h : Explained r f) (hs : Dot.skipBlanks s = .ok u)
    (hw : word? u = some (w, r)) : Explained s f :=
  h.behind (.word hs hw) (nothingDue_singleton (by simp))

theorem wanted (w : Wanted) (hs : Visible s) : Explained s ⟨.wanted w, s⟩ :=
  ⟨[], .refl, fun _ _ => nothingDue_nil, by simp, .inl hs⟩

/-- A failure that is neither a want nor a missing target. -/
theorem plain {fault : Fault} (hc : Consumes us s t) (ht : Visible t)
    (hwanted : ∀ w, fault ≠ .wanted w) (hmissing : fault ≠ .missingTarget) :
    Explained s ⟨fault, t⟩ :=
  ⟨us, hc, fun w hw => absurd hw (hwanted w), fun h => absurd h hmissing, .inl ht⟩

theorem skipBlanks (h : Dot.skipBlanks s = .error f) : Explained s f := by
  obtain ⟨hfault, hrest⟩ := skipBlanks_fault h
  obtain ⟨fault, rest⟩ := f
  cases hfault
  exact plain (.of_skipBlanks (.inr ⟨_, h⟩)) hrest (by simp) (by simp)

end Explained

/-- A failure in a text that an endpoint begins, and if it is a want, not before the endpoint. -/
def ExplainedWithin (u : List Char) (f : Failure) : Prop :=
  ∃ us, ExplainedBy us u f ∧ ∀ w, f.fault = .wanted w → us ≠ [] ∧ BeginsEndpoint u

theorem ExplainedWithin.explained {u : List Char} {f : Failure} (h : ExplainedWithin u f) :
    Explained u f := by
  obtain ⟨us, hus, -⟩ := h
  exact ⟨us, hus⟩

/-- A failure in a text that `k` begins, behind it. -/
def ExplainedBehind (k : Token) (u : List Char) (f : Failure) : Prop :=
  ∃ us, ExplainedBy (k :: us) u f

theorem ExplainedBehind.explained {k : Token} {u : List Char} {f : Failure}
    (h : ExplainedBehind k u f) : Explained u f := by
  obtain ⟨us, hus⟩ := h
  exact ⟨_, hus⟩

theorem ExplainedBehind.within {k : Token} {u : List Char} {f : Failure}
    (h : ExplainedBehind k u f) (hbegins : BeginsEndpoint u) : ExplainedWithin u f := by
  obtain ⟨us, hus⟩ := h
  exact ⟨_, hus, fun _ _ => ⟨List.cons_ne_nil _ _, hbegins⟩⟩

theorem Explained.behind_first {k : Token} {us : List Token} {u t : List Char} {f : Failure}
    (h : Explained t f) (hc : Consumes (k :: us) u t) (hus : NothingDue (k :: us)) :
    ExplainedBehind k u f := by
  obtain ⟨vs, hvs⟩ := h
  exact ⟨us ++ vs, hvs.behind hc hus⟩

theorem Explained.within {k : Token} {us : List Token} {u t : List Char} {f : Failure}
    (h : Explained t f) (hc : Consumes (k :: us) u t) (hus : NothingDue (k :: us))
    (hbegins : BeginsEndpoint u) : ExplainedWithin u f :=
  (h.behind_first hc hus).within hbegins

theorem bind_eq_error {ε α β : Type} {x : Except ε α} {f : α → Except ε β} {e : ε} :
    x >>= f = .error e ↔ x = .error e ∨ ∃ a, x = .ok a ∧ f a = .error e := by
  cases x <;> simp [bind, Except.bind]

theorem map_eq_error {ε α β : Type} {x : Except ε α} {f : α → β} {e : ε} :
    x.map f = .error e ↔ x = .error e := by
  cases x <;> simp [Except.map]

/-! ## Ids and symbols -/

theorem joined_fails {s : List Char} {f : Failure} (h : joined s = .error f) : Explained s f := by
  fun_induction joined s with
  | case1 s e hs =>
    cases h
    exact .skipBlanks hs
  | case2 s t hs e ht =>
    cases h
    exact (Explained.skipBlanks ht).symbol hs (by decide)
  | case3 s t hs u ht hu =>
    cases h
    exact .plain ((Consumes.symbol hs (by decide)).trans (.blanks ht)) (visible_of_skipBlanks ht)
      (by simp) (by simp)
  | case4 s t hs u ht value behind hu ih =>
    have hquoted : token? ('"' :: u) = some (.quoted value, behind) := by simp [token?, hu]
    have hstring := Consumes.first ht hquoted
    have hrest := (ih (map_eq_error.mp h)).behind hstring (nothingDue_singleton (by simp))
    exact hrest.symbol hs (by decide)
  | case5 s t hs u _ ht =>
    cases h
    exact ((Explained.wanted _ (visible_of_skipBlanks ht)).skip ht).symbol hs (by decide)
  | case6 => cases h

/-- A want within an id is behind the string that it begins with. -/
theorem id?_fails {u : List Char} {f : Failure} (h : id? u = .error f) : ExplainedWithin u f := by
  have hunclosed : ∀ fault, Visible u → (∀ w, fault ≠ .wanted w) → fault ≠ .missingTarget →
      ExplainedWithin u ⟨fault, u⟩ := by
    intro fault hu hwanted hmissing
    obtain ⟨us, hus⟩ : Explained u ⟨fault, u⟩ := .plain .refl hu hwanted hmissing
    exact ⟨us, hus, fun w hw => absurd hw (hwanted w)⟩
  unfold id? at h
  split at h
  case h_1 t =>
    split at h
    · cases h
      exact hunclosed _ (visible_cons (by decide) t) (by simp) (by simp)
    · next value behind hq =>
      have hquoted : token? ('"' :: t) = some (.quoted value, behind) := by simp [token?, hq]
      have hstring := Consumes.first (skipBlanks_stop (by decide) t) hquoted
      exact (joined_fails (map_eq_error.mp h)).within hstring (nothingDue_singleton (by simp))
        ⟨_, _, hquoted, rfl⟩
  case h_2 t =>
    split at h
    · cases h
      exact hunclosed _ (visible_cons (by decide) t) (by simp) (by simp)
    · cases h
  case h_3 =>
    split at h
    · cases h
    · split at h <;> cases h

theorem id_fails {wanted : Wanted} {u : List Char} {f : Failure} (hu : Visible u)
    (h : id wanted u = .error f) : Explained u f := by
  simp only [id, bind_eq_error] at h
  obtain h | ⟨read, -, h⟩ := h
  · exact (id?_fails h).explained
  · split at h
    · cases h
    · cases h
      exact .wanted wanted hu

theorem symbol_fails {c : Char} {wanted : Wanted} {s u : List Char} {f : Failure}
    (hs : skipBlanks s = .ok u) (h : symbol c wanted u = .error f) : Explained s f := by
  have hu := visible_of_skipBlanks hs
  apply Explained.skip _ hs
  unfold symbol at h
  split at h
  · split at h
    · cases h
    · cases h
      exact .wanted wanted hu
  · cases h
    exact .wanted wanted hu

theorem skipAttachments_fails {count : Nat} {s : List Char} {f : Failure}
    (h : skipAttachments count s = .error f) : Explained s f := by
  induction count generalizing s with
  | zero => cases h
  | succ count ih =>
    simp only [skipAttachments, bind_eq_error] at h
    obtain h | ⟨u, hu, h⟩ := h
    · exact .skipBlanks h
    split at h
    · next behind =>
      apply Explained.symbol _ hu (by decide)
      simp only [bind_eq_error] at h
      obtain h | ⟨v, hv, h⟩ := h
      · exact .skipBlanks h
      apply Explained.skip _ hv
      obtain h | ⟨q, hq, h⟩ := h
      · exact id_fails (visible_of_skipBlanks hv) h
      obtain ⟨us, hus, hc⟩ := id_sound (skipBlanks_idem hv) hq
      exact (ih h).behind hc hus.nothingDue
    · cases h

theorem beginsEndpoint_of_id? {u : List Char} {q : Taken String} (h : id? u = .ok (some q)) :
    BeginsEndpoint u := by
  obtain ⟨k, r, hk⟩ := token?_of_id? h
  refine ⟨k, r, hk, ?_⟩
  rw [id?_of_token? hk] at h
  cases k with
  | word w =>
    simp only [idFrom] at h
    split at h
    · cases h
    · next hw =>
      have hnone : keyword? w = none := by simpa using hw
      simp [endpointStart, hnone]
  | quoted | markup | numeral => rfl
  | symbol | edgeOp => cases h

theorem nodeId?_fails {u : List Char} {f : Failure} (hu : skipBlanks u = .ok u)
    (h : nodeId? u = .error f) : ExplainedWithin u f := by
  simp only [nodeId?, bind_eq_error] at h
  obtain h | ⟨read, hread, h⟩ := h
  · exact id?_fails h
  split at h
  · cases h
  · simp only [bind_eq_error] at h
    obtain h | ⟨q, -, h⟩ := h
    · obtain ⟨us, hus, hc⟩ := id?_sound hu hread
      obtain ⟨t, us, rfl, -⟩ := isId_head hus
      exact (skipAttachments_fails h).within hc hus.nothingDue (beginsEndpoint_of_id? hread)
    · cases h

/-! ## Repetition and attributes -/

/-- All failures of a reader are explained. -/
def FailsExplained {α : Type} (item : Reader? α) : Prop :=
  ∀ s f, item s = .error f → Explained s f

theorem many_fails {α : Type} {item : Reader? α} {Phrase : List Token → α → Prop}
    (hitem : FailsExplained item) (hread : ReadsOnly item Phrase)
    (hphrase : ∀ us a, Phrase us a → NothingDue us) (hadv : Advances item) {s : List Char}
    {f : Failure} (h : many item hadv s = .error f) : Explained s f := by
  fun_induction many item hadv s with
  | case1 s failure hs =>
    cases h
    exact hitem s _ hs
  | case2 => cases h
  | case3 s a behind hs failure hrest ih =>
    cases h
    obtain ⟨us, hus, hc⟩ := hread _ _ _ hs
    exact (ih hrest).behind hc (hphrase _ _ hus)
  | case4 => cases h

theorem skipSeparator_fails {s : List Char} {f : Failure} (h : skipSeparator s = .error f) :
    Explained s f := by
  simp only [skipSeparator, bind_eq_error] at h
  obtain h | ⟨u, -, h⟩ := h
  · exact .skipBlanks h
  · split at h <;> cases h

theorem attr_fails : FailsExplained attr? := by
  intro s f h
  simp only [attr?, bind_eq_error] at h
  obtain h | ⟨u, hu, h⟩ := h
  · exact .skipBlanks h
  split at h
  · cases h
  apply Explained.skip _ hu
  simp only [bind_eq_error] at h
  obtain h | ⟨key, hkey, h⟩ := h
  · exact id_fails (visible_of_skipBlanks hu) h
  obtain ⟨us, hus, hc⟩ := id_sound (skipBlanks_idem hu) hkey
  apply Explained.behind _ hc hus.nothingDue
  obtain h | ⟨v, hv, h⟩ := h
  · exact .skipBlanks h
  obtain h | ⟨s₂, hs₂, h⟩ := h
  · exact symbol_fails hv h
  rw [symbol_eq_ok hs₂] at hv
  apply Explained.symbol _ hv (by decide)
  obtain h | ⟨v, hv, h⟩ := h
  · exact .skipBlanks h
  apply Explained.skip _ hv
  obtain h | ⟨value, hvalue, h⟩ := h
  · exact id_fails (visible_of_skipBlanks hv) h
  obtain ⟨vs, hvs, hc⟩ := id_sound (skipBlanks_idem hv) hvalue
  apply Explained.behind _ hc hvs.nothingDue
  obtain h | ⟨s₃, -, h⟩ := h
  · exact skipSeparator_fails h
  · cases h

theorem bracket_fails : FailsExplained bracket? := by
  intro s f h
  simp only [bracket?, bind_eq_error] at h
  obtain h | ⟨u, hu, h⟩ := h
  · exact .skipBlanks h
  split at h
  · apply Explained.symbol _ hu (by decide)
    simp only [bind_eq_error] at h
    obtain h | ⟨attrs, hattrs, h⟩ := h
    · exact many_fails attr_fails attr_sound (fun _ _ => IsAttr.nothingDue) _ h
    obtain ⟨us, hus, hc⟩ := many_sound attr_sound _ hattrs
    apply Explained.behind _ hc (hus.nothingDue fun _ _ => IsAttr.nothingDue)
    obtain h | ⟨v, hv, h⟩ := h
    · exact .skipBlanks h
    obtain h | ⟨s₂, -, h⟩ := h
    · exact symbol_fails hv h
    · cases h
  · cases h

theorem attrLists_fails {s : List Char} {f : Failure} (h : attrLists s = .error f) :
    Explained s f := by
  simp only [attrLists, bind_eq_error] at h
  obtain h | ⟨lists, -, h⟩ := h
  · exact many_fails bracket_fails bracket_sound (fun _ _ => IsBracket.nothingDue) _ h
  · cases h

/-! ## Endpoints -/

section Block

variable {depth : Nat}

/-- All failures within the blocks of this depth are explained by their braces and what is behind
them. -/
def BlocksExplained (depth : Nat) : Prop :=
  ∀ s f, (block depth).read s = .error f → ExplainedBehind (.symbol '\x7b') ('\x7b' :: s) f

theorem skipName_fails {u : List Char} {f : Failure} (h : skipName u = .error f) :
    Explained u f := by
  simp only [skipName, bind_eq_error] at h
  obtain h | ⟨name, -, h⟩ := h
  · exact (id?_fails h).explained
  · split at h <;> cases h

theorem subgraph_fails (hb : BlocksExplained depth) {u : List Char} {f : Failure}
    (hu : skipBlanks u = .ok u) (h : subgraph? (block depth) u = .error f) :
    ExplainedWithin u f := by
  simp only [subgraph?] at h
  split at h
  case h_1 w behind hword =>
    split at h
    · next hw =>
      have hbegins : BeginsEndpoint u := ⟨_, _, word?_iff.mp hword, by simp [endpointStart, hw]⟩
      have hbehind : Explained behind f := by
        simp only [bind_eq_error] at h
        obtain h | ⟨s₁, hs₁, h⟩ := h
        · exact .skipBlanks h
        obtain h | ⟨s₂, hs₂, h⟩ := h
        · exact (skipName_fails h).skip hs₁
        obtain ⟨us, hus, hc⟩ := skipName_sound hs₁ hs₂
        have hdue : NothingDue us := by
          obtain rfl | ⟨name, hname⟩ := hus
          · exact nothingDue_nil
          · exact hname.nothingDue
        apply Explained.behind _ hc hdue
        obtain h | ⟨s₃, hs₃, h⟩ := h
        · exact .skipBlanks h
        obtain h | ⟨s₄, hs₄, h⟩ := h
        · exact symbol_fails hs₃ h
        rw [symbol_eq_ok hs₄] at hs₃
        obtain h | ⟨q, -, h⟩ := h
        · exact (hb _ _ h).explained.skip hs₃
        · cases h
      exact hbehind.within (.word hu hword) (nothingDue_singleton (by simp)) hbegins
    · cases h
  case h_2 =>
    split at h
    · next behind _ =>
      simp only [bind_eq_error] at h
      obtain h | ⟨q, -, h⟩ := h
      · exact (hb _ _ h).within ⟨_, _, token?_symbol (by decide) _, rfl⟩
      · cases h
    · cases h

theorem endpoint_fails (hb : BlocksExplained depth) {u : List Char} {f : Failure}
    (hu : skipBlanks u = .ok u) (h : endpoint? (block depth) u = .error f) :
    ExplainedWithin u f := by
  simp only [endpoint?, bind_eq_error] at h
  obtain h | ⟨body, -, h⟩ := h
  · exact subgraph_fails hb hu h
  split at h
  · cases h
  · simp only [bind_eq_error] at h
    obtain h | ⟨node, -, h⟩ := h
    · exact nodeId?_fails hu h
    · split at h <;> cases h

/-- Where no endpoint is read, none begins. -/
theorem not_beginsEndpoint {b : BlockReader} {u : List Char} (h : endpoint? b u = .ok none) :
    ¬ BeginsEndpoint u := by
  rintro ⟨k, r, hk, hstart⟩
  simp only [endpoint?, bind_eq_ok] at h
  obtain ⟨body, hbody, h⟩ := h
  split at h
  · cases h
  simp only [bind_eq_ok] at h
  obtain ⟨node, hnode, h⟩ := h
  split at h
  · cases h
  simp only [nodeId?, bind_eq_ok] at hnode
  obtain ⟨read, hread, hnode⟩ := hnode
  split at hnode
  case h_2 =>
    simp only [bind_eq_ok] at hnode
    obtain ⟨_, -, hnode⟩ := hnode
    cases hnode
  case h_1 =>
    rw [id?_of_token? hk] at hread
    cases k with
    | quoted v =>
      obtain ⟨_, -, he⟩ := map_eq_ok.mp hread
      cases he
    | markup | numeral => cases hread
    | edgeOp => cases hstart
    | word w =>
      have hw : keyword? w = some .subgraph := by
        simp only [idFrom] at hread
        split at hread
        · next hsome => simpa [endpointStart, Option.isSome_iff_ne_none.mp hsome] using hstart
        · cases hread
      simp only [subgraph?, word?_iff.mpr hk, hw, if_true, bind_eq_ok] at hbody
      obtain ⟨_, -, _, -, _, -, _, -, _, -, hbody⟩ := hbody
      cases hbody
    | symbol c =>
      obtain rfl : c = '\x7b' := by simpa [endpointStart] using hstart
      obtain ⟨rfl, -⟩ := readBy_of_token? hk
      have hword : word? ('\x7b' :: r) = none := rfl
      rw [subgraph?, hword] at hbody
      simp only [bind_eq_ok] at hbody
      obtain ⟨_, -, hbody⟩ := hbody
      cases hbody

theorem inTarget_cases (f : Failure) :
    (∃ w, f = ⟨.wanted w, f.rest⟩ ∧ f.inTarget = ⟨.missingTarget, f.rest⟩) ∨
      (∀ w, f.fault ≠ .wanted w) ∧ f.inTarget = f := by
  obtain ⟨fault, rest⟩ := f
  cases fault with
  | wanted w => exact .inl ⟨w, rfl, rfl⟩
  | _ => exact .inr ⟨by simp, rfl⟩

/-- Behind an edge operator, nothing that begins an endpoint and an endpoint that misses something
are both reported as a missing target. -/
theorem target_fails (hb : BlocksExplained depth) : FailsExplained (target? (block depth)) := by
  intro s f h
  simp only [target?, bind_eq_error] at h
  obtain h | ⟨u, hu, h⟩ := h
  · exact .skipBlanks h
  split at h
  · cases h
  next behind hop =>
  have hc := Consumes.first hu (edgeOp?_iff.mp hop)
  simp only [bind_eq_error] at h
  obtain h | ⟨v, hv, h⟩ := h
  · obtain ⟨us, hus⟩ := Explained.skipBlanks h
    exact ⟨_, hus.behind_plain hc (by simp [(skipBlanks_fault h).1])⟩
  have hop : Consumes [.edgeOp] s v := hc.trans (.blanks hv)
  have hv := skipBlanks_idem hv
  split at h
  · next failure hread =>
    obtain ⟨us, hus, hbegins⟩ := endpoint_fails hb hv hread
    cases h
    obtain ⟨w, hw, hin⟩ | ⟨hplain, hin⟩ := inTarget_cases failure
    · have hwant : failure.fault = .wanted w := by rw [hw]
      rw [hin]
      rw [hw] at hread
      have hmisses : TargetMisses s failure.rest :=
        ⟨v, depth, w, ⟨[], hop⟩, hv, (hbegins w hwant).2, hread⟩
      have hrest := hus.visible (by simp [hwant])
      exact ⟨_, hop.trans hus.consumes, by simp, fun _ => .inr hmisses, .inl hrest⟩
    · rw [hin]
      exact ⟨_, hus.behind_plain hop hplain⟩
  · next hread =>
    cases h
    exact ⟨_, hop, by simp, fun _ => .inl ⟨⟨[], hop⟩, not_beginsEndpoint hread⟩,
      .inl (visible_of_skipBlanks hv)⟩
  · cases h

/-! ## Statements -/

theorem chain_fails (hb : BlocksExplained depth) {u : List Char} {f : Failure}
    (hu : skipBlanks u = .ok u) (h : chain (block depth) u = .error f) : Explained u f := by
  simp only [chain, bind_eq_error] at h
  obtain h | ⟨first, hfirst, h⟩ := h
  · exact (endpoint_fails hb hu h).explained
  split at h
  case h_1 =>
    cases h
    exact .wanted _ (visible_of_skipBlanks hu)
  case h_2 first behind =>
    obtain ⟨us, hus, hc⟩ := endpoint_sound (block_sound depth) hu hfirst
    apply Explained.behind _ hc hus.ends.2
    simp only [bind_eq_error] at h
    obtain h | ⟨v, hv, h⟩ := h
    · exact .skipBlanks h
    split at h
    · simp only [bind_eq_error] at h
      apply Explained.symbol _ hv (by decide)
      obtain h | ⟨v, hv, h⟩ := h
      · exact .skipBlanks h
      obtain h | ⟨value, -, h⟩ := h
      · exact (id_fails (visible_of_skipBlanks hv) h).skip hv
      · cases h
    · simp only [bind_eq_error] at h
      apply Explained.skip _ hv
      obtain h | ⟨targets, htargets, h⟩ := h
      · exact many_fails (target_fails hb) (target_sound (block_sound depth))
          (fun _ _ => IsTarget.nothingDue) _ h
      obtain ⟨vs, hvs, hc⟩ := many_sound (target_sound (block_sound depth)) _ htargets
      apply Explained.behind _ hc (hvs.nothingDue fun _ _ => IsTarget.nothingDue)
      obtain h | ⟨attrs, -, h⟩ := h
      · exact attrLists_fails h
      · cases h

theorem defaults_fails {target : Target} {s : List Char} {f : Failure}
    (h : defaults target s = .error f) : Explained s f := by
  simp only [defaults, bind_eq_error] at h
  obtain h | ⟨attrs, -, h⟩ := h
  · exact attrLists_fails h
  · cases h

theorem stmt_fails (hb : BlocksExplained depth) {u : List Char} {f : Failure}
    (hu : skipBlanks u = .ok u) (h : stmt (block depth) u = .error f) : Explained u f := by
  unfold stmt at h
  split at h
  case h_1 => exact chain_fails hb hu h
  case h_2 w behind hword =>
    split at h
    case h_1 | h_2 | h_3 => exact (defaults_fails h).word hu hword
    case h_4 | h_5 =>
      cases h
      exact .plain .refl (visible_of_skipBlanks hu) (by simp) (by simp)
    case h_6 | h_7 => exact chain_fails hb hu h

theorem item_fails (hb : BlocksExplained depth) : FailsExplained (stmt? (block depth)) := by
  intro s f h
  simp only [stmt?, bind_eq_error] at h
  obtain h | ⟨u, hu, h⟩ := h
  · exact .skipBlanks h
  split at h
  · cases h
  · cases h
  · cases h
  · simp only [bind_eq_error] at h
    obtain h | ⟨q, -, h⟩ := h
    · exact (stmt_fails hb (skipBlanks_idem hu) h).skip hu
    · cases h

theorem statements_fails (hb : BlocksExplained depth) {s : List Char} {f : Failure}
    (h : statements (block depth) s = .error f) : Explained s f := by
  simp only [statements, bind_eq_error] at h
  obtain h | ⟨items, hitems, h⟩ := h
  · exact many_fails (item_fails hb) (item_sound (block_sound depth))
      (fun _ _ => IsItem.nothingDue) _ h
  obtain ⟨us, hus, hc⟩ := many_sound (item_sound (block_sound depth)) _ hitems
  apply Explained.behind _ hc (hus.nothingDue fun _ _ => IsItem.nothingDue)
  obtain h | ⟨v, hv, h⟩ := h
  · exact .skipBlanks h
  obtain h | ⟨s₂, -, h⟩ := h
  · exact symbol_fails hv h
  · cases h

end Block

theorem block_fails (depth : Nat) : BlocksExplained depth := by
  induction depth with
  | zero =>
    -- Blanks may follow the brace of a block too many, and none of them is left out.
    intro s f h
    cases h
    have hc : Consumes [.symbol '\x7b'] ('\x7b' :: s) s :=
      .symbol (skipBlanks_brace s) (by decide)
    exact ⟨[], hc, by simp, by simp, .inr ⟨rfl, [], .refl⟩⟩
  | succ depth ih =>
    intro s f h
    exact (statements_fails ih h).behind_first (.symbol (skipBlanks_brace s) (by decide))
      (nothingDue_singleton (by simp))

/-! ## Documents -/

theorem kind_fails {start w : List Char} {f : Failure} (hstart : Visible start)
    (h : header.kind start w = .error f) : Explained start f := by
  unfold header.kind at h
  split at h
  · cases h
  · cases h
  · cases h
    exact .wanted _ hstart

theorem header_fails {s : List Char} {f : Failure} (h : header s = .error f) : Explained s f := by
  simp only [header, bind_eq_error] at h
  obtain h | ⟨u, hu, h⟩ := h
  · exact .skipBlanks h
  apply Explained.skip _ hu
  have hstart := visible_of_skipBlanks hu
  have hu := skipBlanks_idem hu
  split at h
  · next w behind hword =>
    split at h
    · simp only [bind_eq_error] at h
      obtain h | ⟨v, hv, h⟩ := h
      · exact (Explained.skipBlanks h).word hu hword
      split at h
      · simp only [bind_eq_error] at h
        obtain h | ⟨directed, -, h⟩ := h
        · exact kind_fails hstart h
        · cases h
      · cases h
        exact ((Explained.wanted _ (visible_of_skipBlanks hv)).skip hv).word hu hword
    · simp only [bind_eq_error] at h
      obtain h | ⟨directed, -, h⟩ := h
      · exact kind_fails hstart h
      · cases h
  · cases h
    exact .wanted _ hstart

theorem IsKind.nothingDue {k : Token} {directed : Bool} (hk : IsKind k directed)
    (us : List Token) : NothingDue (us ++ [k]) := by
  have hlast : NothingDue [k] := nothingDue_singleton (by cases hk <;> simp)
  exact hlast.append_of_ne_nil (by simp) us

/-- Wherever a text fails to be a document, the failure is explained. -/
theorem document_fails {s : List Char} {f : Failure} (h : document s = .error f) :
    Explained s f := by
  simp only [document, bind_eq_error] at h
  obtain h | ⟨⟨⟨strict, directed⟩, s₁⟩, hheader, h⟩ := h
  · exact header_fails h
  obtain ⟨us, k, -, hk, hc⟩ := header_sound hheader
  apply Explained.behind _ hc (hk.nothingDue us)
  obtain h | ⟨u, hu, h⟩ := h
  · exact .skipBlanks h
  obtain h | ⟨read, hread, h⟩ := h
  · exact (id?_fails h).explained.skip hu
  obtain ⟨vs, hvs, hc⟩ : ∃ vs, NothingDue vs ∧
      Consumes vs s₁ ((read.map Prod.snd).getD u) := by
    cases read with
    | none => exact ⟨[], nothingDue_nil, .blanks hu⟩
    | some r =>
      obtain ⟨vs, hvs, hc⟩ := id?_sound hu hread
      exact ⟨vs, hvs.nothingDue, hc⟩
  apply Explained.behind _ hc hvs
  obtain h | ⟨v, hv, h⟩ := h
  · have hblanks : skipBlanks ((read.map Prod.snd).getD u) = .error f := by cases read <;> exact h
    exact .skipBlanks hblanks
  have hv : skipBlanks ((read.map Prod.snd).getD u) = .ok v := by cases read <;> exact hv
  obtain h | ⟨s₂, hs₂, h⟩ := h
  · exact symbol_fails hv h
  rw [symbol_eq_ok hs₂] at hv
  obtain h | ⟨q, hq, h⟩ := h
  · exact (block_fails _ _ _ h).explained.skip hv
  obtain ⟨ws, hws, hc⟩ := block_sound _ _ _ hq
  apply Explained.behind _ ((Consumes.symbol hv (by decide)).trans hc) hws.ends.2
  obtain h | ⟨w, hw, h⟩ := h
  · exact .skipBlanks h
  split at h
  · cases h
  · cases h
    exact .plain (.blanks hw) (visible_of_skipBlanks hw) (by simp) (by simp)

end Tiered.Dot
