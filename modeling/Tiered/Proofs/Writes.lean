/-!
# Writing into arrays

Numbered nodes keep their data in arrays, which are filled by writing values at places one after
the other. Writes at places that the array does not have are lost.

* `getD_setIfInBounds_true`: which places are marked after one more;
* `getD_writes_of_mem`, `getD_writes_of_notMem`: what an array holds after writes at places that
  differ;
* `getD_modifies`: what an array of lists holds after elements were put in front of its lists.
-/

namespace Tiered

variable {α : Type}

theorem getD_setIfInBounds (a : Array α) (i j : Nat) (v d : α) :
    (a.setIfInBounds i v).getD j d = if i = j ∧ j < a.size then v else a.getD j d := by
  simp only [Array.getD_eq_getD_getElem?, Array.getElem?_setIfInBounds]
  by_cases hij : i = j
  · subst hij
    by_cases hi : i < a.size <;> simp [hi]
  · simp [hij]

theorem getD_modify (a : Array α) (i j : Nat) (f : α → α) (d : α) :
    (a.modify i f).getD j d = if i = j ∧ j < a.size then f (a.getD j d) else a.getD j d := by
  simp only [Array.getD_eq_getD_getElem?, Array.getElem?_modify]
  by_cases hij : i = j
  · subst hij
    by_cases hi : i < a.size <;> simp [hi]
  · simp [hij]

theorem getD_replicate (n j : Nat) (d : α) : (Array.replicate n d).getD j d = d := by
  simp only [Array.getD_eq_getD_getElem?, Array.getElem?_replicate]
  split <;> rfl

theorem getD_of_lt {a : Array α} {j : Nat} (h : j < a.size) (d : α) : a.getD j d = a[j] := by
  rw [Array.getD_eq_getD_getElem?, Array.getElem?_eq_getElem h, Option.getD_some]

theorem getD_of_size_le {a : Array α} {j : Nat} (h : a.size ≤ j) (d : α) : a.getD j d = d := by
  simp [Array.getD_eq_getD_getElem?, Array.getElem?_eq_none h]

/-- Arrays with the same entries are the same. -/
theorem ext_getD {xs ys : Array α} (d : α) (hsize : xs.size = ys.size)
    (h : ∀ i < xs.size, xs.getD i d = ys.getD i d) : xs = ys := by
  refine Array.ext hsize fun i hi hi' => ?_
  have hget := h i hi
  rwa [getD_of_lt hi, getD_of_lt hi'] at hget

theorem getD_modify_append (lists : Array (List α)) (i : Nat) (x : α) {j : Nat}
    (hj : j < lists.size) : (lists.modify i (· ++ [x])).getD j [] =
      lists.getD j [] ++ if i = j then [x] else [] := by
  rw [getD_modify]
  by_cases hi : i = j <;> simp [hi, hj]

/-! ## Marks

A place that the array does not have counts as marked. -/

theorem lt_size_of_getD_false {a : Array Bool} {j : Nat} (h : a.getD j true = false) :
    j < a.size := by
  apply Classical.byContradiction
  intro hge
  rw [getD_of_size_le (Nat.le_of_not_lt hge)] at h
  cases h

theorem getD_setIfInBounds_true {a : Array Bool} {i j : Nat} :
    (a.setIfInBounds i true).getD j true = true ↔ j = i ∨ a.getD j true = true := by
  rw [getD_setIfInBounds]
  by_cases hij : i = j
  · by_cases hj : j < a.size
    · simp [hij, hj]
    · simp [hij, hj, getD_of_size_le (Nat.le_of_not_lt hj)]
  · rw [if_neg fun h => hij h.1]
    simp [Ne.symm hij]

/-! ## Writes -/

/-- Writes the values at their places, from the first to the last. -/
def writes (a : Array α) (entries : List (Nat × α)) : Array α :=
  entries.foldl (fun a e => a.setIfInBounds e.1 e.2) a

@[simp] theorem size_writes (a : Array α) (entries : List (Nat × α)) :
    (writes a entries).size = a.size := by
  unfold writes
  induction entries generalizing a with
  | nil => rfl
  | cons e rest ih => rw [List.foldl_cons, ih, Array.size_setIfInBounds]

theorem writes_append (a : Array α) (xs ys : List (Nat × α)) :
    writes a (xs ++ ys) = writes (writes a xs) ys :=
  List.foldl_append

theorem getD_writes_of_notMem {entries : List (Nat × α)} {j : Nat}
    (h : j ∉ entries.map Prod.fst) (a : Array α) (d : α) :
    (writes a entries).getD j d = a.getD j d := by
  induction entries generalizing a with
  | nil => rfl
  | cons e rest ih =>
    rw [List.map_cons, List.mem_cons, not_or] at h
    have hrest : (writes (a.setIfInBounds e.1 e.2) rest).getD j d =
        (a.setIfInBounds e.1 e.2).getD j d := ih h.2 _
    refine hrest.trans ?_
    rw [getD_setIfInBounds, if_neg]
    exact fun he => h.1 he.1.symm

theorem getD_writes_of_mem {entries : List (Nat × α)} (hd : (entries.map Prod.fst).Nodup)
    {j : Nat} {v : α} (h : (j, v) ∈ entries) {a : Array α} (hj : j < a.size) (d : α) :
    (writes a entries).getD j d = v := by
  induction entries generalizing a with
  | nil => cases h
  | cons e rest ih =>
    rw [List.map_cons, List.nodup_cons] at hd
    change (writes (a.setIfInBounds e.1 e.2) rest).getD j d = v
    rcases List.mem_cons.mp h with rfl | hmem
    · rw [getD_writes_of_notMem hd.1, getD_setIfInBounds, if_pos ⟨rfl, hj⟩]
    · exact ih hd.2 hmem (by rwa [Array.size_setIfInBounds])

/-! ## Lists that grow at their fronts -/

section Fronts

variable {β : Type} (key : α → Nat) (value : α → β)

theorem size_modifies (xs : List α) (a : Array (List β)) :
    (xs.foldl (fun a x => a.modify (key x) (value x :: ·)) a).size = a.size := by
  induction xs generalizing a with
  | nil => rfl
  | cons x rest ih => rw [List.foldl_cons, ih, Array.size_modify]

/-- What is put in front last comes first. -/
theorem getD_modifies (xs : List α) (a : Array (List β)) {j : Nat} (hj : j < a.size) :
    (xs.foldl (fun a x => a.modify (key x) (value x :: ·)) a).getD j [] =
      ((xs.filter fun x => key x = j).map value).reverse ++ a.getD j [] := by
  induction xs generalizing a with
  | nil => rfl
  | cons x rest ih =>
    rw [List.foldl_cons, ih _ (by rwa [Array.size_modify]), getD_modify]
    by_cases hx : key x = j
    · simp [hx, hj]
    · simp [hx]

end Fronts

end Tiered
