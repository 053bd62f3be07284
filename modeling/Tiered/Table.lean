/-!
Tables keyed by texts, kept in the order of their keys. Two tables with the same answers are equal.
-/
namespace Tiered

/-- Keys ascend by code point, so each key occurs once. -/
abbrev Ascending {α : Type} (entries : List (String × α)) : Prop :=
  entries.Pairwise fun a b => a.1 < b.1

structure Table (α : Type) where
  entries : List (String × α)
  ascending : Ascending entries

namespace Table

variable {α : Type}

theorem ext_entries {s t : Table α} (h : s.entries = t.entries) : s = t := by
  cases s; cases t; cases h; rfl

instance [DecidableEq α] : DecidableEq (Table α) := fun s t =>
  if h : s.entries = t.entries then isTrue (ext_entries h)
  else isFalse fun e => h (e ▸ rfl)

instance [Repr α] : Repr (Table α) := ⟨fun t => reprPrec t.entries⟩

def empty : Table α := ⟨[], .nil⟩

instance : EmptyCollection (Table α) := ⟨empty⟩
instance : Inhabited (Table α) := ⟨empty⟩

def isEmpty (t : Table α) : Bool := t.entries.isEmpty

/-- Writes `v` under `k` into ascending entries, in place of any value there. -/
def put (k : String) (v : α) : List (String × α) → List (String × α)
  | [] => [(k, v)]
  | e :: rest =>
    if k < e.1 then (k, v) :: e :: rest
    else if k = e.1 then (k, v) :: rest
    else e :: put k v rest

theorem mem_put {k : String} {v : α} {l : List (String × α)} {e : String × α}
    (h : e ∈ put k v l) : e = (k, v) ∨ e ∈ l := by
  induction l with
  | nil => exact .inl (by simpa [put] using h)
  | cons a rest ih => grind [put]

theorem put_ascending (k : String) (v : α) {l : List (String × α)} (h : Ascending l) :
    Ascending (put k v l) := by
  induction l with
  | nil => simp [put, Ascending]
  | cons a rest ih =>
    obtain ⟨ha, hrest⟩ := List.pairwise_cons.mp h
    unfold put
    split
    case isTrue hlt =>
      refine List.pairwise_cons.mpr ⟨?_, h⟩
      intro b hb
      rcases List.mem_cons.mp hb with rfl | hb
      · exact hlt
      · exact String.lt_trans hlt (ha b hb)
    case isFalse hlt =>
      split
      case isTrue heq =>
        exact List.pairwise_cons.mpr ⟨fun b hb => heq ▸ ha b hb, hrest⟩
      case isFalse hne =>
        refine List.pairwise_cons.mpr ⟨?_, ih hrest⟩
        intro b hb
        rcases mem_put hb with rfl | hb
        · have hle : a.1 ≤ k := String.not_lt.mp hlt
          apply Classical.byContradiction
          intro hnot
          exact hne (String.le_antisymm (String.not_lt.mp hnot) hle)
        · exact ha b hb

def insert (t : Table α) (k : String) (v : α) : Table α :=
  ⟨put k v t.entries, put_ascending k v t.ascending⟩

def get? (t : Table α) (k : String) : Option α :=
  t.entries.lookup k

/-- Writes the pairs one after the other, so the last value of a key stays. -/
def extend (t : Table α) (pairs : List (String × α)) : Table α :=
  pairs.foldl (fun t e => t.insert e.1 e.2) t

def ofList (pairs : List (String × α)) : Table α :=
  (∅ : Table α).extend pairs

def keys (t : Table α) : List String := t.entries.map (·.1)

end Table
end Tiered
