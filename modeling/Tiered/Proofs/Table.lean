import Tiered.Table

/-!
# What tables answer

* `get?_insert`, `get?_extend`: writing changes the answers for the keys written, the last value
  winning;
* `ext_get?`: a table is known by its answers;
* `ofList_entries`: a table is rebuilt by writing its entries.
-/
namespace Tiered.Table

variable {α : Type}

theorem lookup_cons (e : String × α) (l : List (String × α)) (k : String) :
    (e :: l).lookup k = if k = e.1 then some e.2 else l.lookup k := by
  by_cases h : k = e.1
  · rw [if_pos h, h]
    exact List.lookup_cons_self
  · have hne : (k == e.1) = false := by simpa using h
    rw [if_neg h, List.lookup_cons, hne]

theorem lookup_put (k : String) (v : α) (l : List (String × α)) (j : String) :
    (put k v l).lookup j = if j = k then some v else l.lookup j := by
  induction l with
  | nil => rw [put, lookup_cons]
  | cons e rest ih =>
    unfold put
    split
    case isTrue => rw [lookup_cons]
    case isFalse =>
      split
      case isTrue heq =>
        rw [lookup_cons, lookup_cons]
        by_cases hj : j = k
        · simp [hj]
        · simp [hj, ← heq]
      case isFalse hne =>
        rw [lookup_cons, ih, lookup_cons]
        by_cases hj : j = e.1
        · simp [hj, Ne.symm hne]
        · simp [hj]

theorem get?_insert (t : Table α) (k : String) (v : α) (j : String) :
    (t.insert k v).get? j = if j = k then some v else t.get? j :=
  lookup_put k v t.entries j

@[simp] theorem get?_empty (k : String) : (∅ : Table α).get? k = none := rfl

theorem extend_cons (t : Table α) (e : String × α) (pairs : List (String × α)) :
    t.extend (e :: pairs) = (t.insert e.1 e.2).extend pairs := rfl

/-- Of the values that pairs give a key the last one wins. -/
theorem get?_extend (t : Table α) (pairs : List (String × α)) (k : String) :
    (t.extend pairs).get? k = (pairs.reverse.lookup k).or (t.get? k) := by
  induction pairs generalizing t with
  | nil => simp [extend]
  | cons e rest ih =>
    rw [extend_cons, ih, get?_insert, List.reverse_cons, List.lookup_append, lookup_cons]
    by_cases hk : k = e.1
    · simp [hk]
    · simp [hk]

theorem lookup_eq_none {l : List (String × α)} {k : String} (h : ∀ e ∈ l, e.1 ≠ k) :
    l.lookup k = none := by
  induction l with
  | nil => rfl
  | cons e rest ih =>
    have hk : ¬ k = e.1 := fun hk => h e List.mem_cons_self hk.symm
    rw [lookup_cons, if_neg hk]
    exact ih fun e he => h e (List.mem_cons_of_mem _ he)

theorem mem_of_lookup {l : List (String × α)} {k : String} {v : α} (h : l.lookup k = some v) :
    (k, v) ∈ l := by
  induction l with
  | nil => cases h
  | cons e rest ih =>
    rw [lookup_cons] at h
    by_cases hk : k = e.1
    · rw [if_pos hk, Option.some.injEq] at h
      subst hk h
      exact List.mem_cons_self
    · rw [if_neg hk] at h
      exact List.mem_cons_of_mem _ (ih h)

theorem ne_of_lt {a b : String} (h : a < b) : a ≠ b := by
  rintro rfl
  exact String.lt_irrefl _ h

theorem lookup_of_mem {l : List (String × α)} (hl : Ascending l) {k : String} {v : α}
    (h : (k, v) ∈ l) : l.lookup k = some v := by
  induction l with
  | nil => cases h
  | cons e rest ih =>
    obtain ⟨he, hrest⟩ := List.pairwise_cons.mp hl
    rw [lookup_cons]
    rcases List.mem_cons.mp h with rfl | h
    · simp
    · have hne : ¬ k = e.1 := fun hk => ne_of_lt (he _ h) hk.symm
      rw [if_neg hne, ih hrest h]

theorem mem_entries {t : Table α} {k : String} {v : α} :
    (k, v) ∈ t.entries ↔ t.get? k = some v :=
  ⟨lookup_of_mem t.ascending, mem_of_lookup⟩

/-- Ascending entries with the same answers are the same entries. -/
theorem eq_of_lookup {l m : List (String × α)} (hl : Ascending l) (hm : Ascending m)
    (h : ∀ k, l.lookup k = m.lookup k) : l = m := by
  induction l generalizing m with
  | nil =>
    cases m with
    | nil => rfl
    | cons b rest => have := h b.1; simp [lookup_cons] at this
  | cons a l ih =>
    cases m with
    | nil => have := h a.1; simp [lookup_cons] at this
    | cons b m =>
      obtain ⟨ha, hl⟩ := List.pairwise_cons.mp hl
      obtain ⟨hb, hm⟩ := List.pairwise_cons.mp hm
      have first : ∀ {c d : String × α} {n : List (String × α)}, c.1 < d.1 →
          (∀ e ∈ n, d.1 < e.1) → (d :: n).lookup c.1 = none := by
        intro c d n hlt hn
        apply lookup_eq_none
        intro e he
        rcases List.mem_cons.mp he with rfl | he
        · exact (ne_of_lt hlt).symm
        · exact (ne_of_lt (String.lt_trans hlt (hn e he))).symm
      have hkey : a.1 = b.1 := by
        apply String.le_antisymm
        · apply String.not_lt.mp
          intro hlt
          have := h b.1
          rw [first hlt ha] at this
          simp [lookup_cons] at this
        · apply String.not_lt.mp
          intro hlt
          have := h a.1
          rw [first hlt hb] at this
          simp [lookup_cons] at this
      have hvalue : a.2 = b.2 := by
        have := h a.1
        simpa [lookup_cons, hkey] using this
      have hrest : l = m := by
        apply ih hl hm
        intro k
        by_cases hk : k = a.1
        · subst hk
          rw [lookup_eq_none fun e he => (ne_of_lt (ha e he)).symm,
            lookup_eq_none fun e he => hkey ▸ (ne_of_lt (hb e he)).symm]
        · have := h k
          simpa [lookup_cons, hk, hkey ▸ hk] using this
      rw [hrest, Prod.ext hkey hvalue]

/-- A table is known by its answers. -/
theorem ext_get? {s t : Table α} (h : ∀ k, s.get? k = t.get? k) : s = t :=
  ext_entries (eq_of_lookup s.ascending t.ascending h)

theorem lookup_reverse {l : List (String × α)} (hl : Ascending l) (k : String) :
    l.reverse.lookup k = l.lookup k := by
  induction l with
  | nil => rfl
  | cons e rest ih =>
    obtain ⟨he, hrest⟩ := List.pairwise_cons.mp hl
    rw [List.reverse_cons, List.lookup_append, ih hrest, lookup_cons, lookup_cons]
    by_cases hk : k = e.1
    · subst hk
      rw [lookup_eq_none fun f hf => (ne_of_lt (he f hf)).symm]
      simp
    · simp [hk]

/-- Writing the entries of a table over another one. -/
theorem get?_extend_entries (s t : Table α) (k : String) :
    (s.extend t.entries).get? k = (t.get? k).or (s.get? k) := by
  rw [get?_extend, lookup_reverse t.ascending]
  rfl

theorem ofList_entries (t : Table α) : ofList t.entries = t := by
  apply ext_get?
  intro k
  simp [ofList, get?_extend_entries]

theorem mem_extend {t : Table α} {pairs : List (String × α)} {e : String × α}
    (h : e ∈ (t.extend pairs).entries) : e ∈ t.entries ∨ e ∈ pairs := by
  induction pairs generalizing t with
  | nil => exact .inl h
  | cons p rest ih =>
    rcases ih h with h | h
    · rcases mem_put h with rfl | h
      · exact .inr List.mem_cons_self
      · exact .inl h
    · exact .inr (List.mem_cons_of_mem _ h)

theorem mem_keys {t : Table α} {k : String} : k ∈ t.keys ↔ (t.get? k).isSome := by
  rw [Option.isSome_iff_exists, keys, List.mem_map]
  constructor
  · rintro ⟨e, he, rfl⟩
    exact ⟨e.2, mem_entries.mp he⟩
  · rintro ⟨v, hv⟩
    exact ⟨(k, v), mem_entries.mpr hv, rfl⟩

/-- Writing pairs adds their keys. -/
theorem mem_keys_extend {t : Table α} {pairs : List (String × α)} {k : String} :
    k ∈ (t.extend pairs).keys ↔ k ∈ t.keys ∨ ∃ e ∈ pairs, e.1 = k := by
  induction pairs generalizing t with
  | nil => simp [extend]
  | cons e rest ih =>
    rw [extend_cons, ih, mem_keys, mem_keys, get?_insert]
    by_cases hk : k = e.1
    · simp [hk]
    · simp [hk, Ne.symm hk]

theorem isEmpty_iff {t : Table α} : t.isEmpty = true ↔ t = ∅ := by
  constructor
  · intro h
    exact ext_entries (List.isEmpty_iff.mp h)
  · rintro rfl
    rfl

end Tiered.Table
