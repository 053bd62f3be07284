import Mathlib.Data.List.GetD
import Mathlib.Data.List.Induction
import Tiered.Layering.Arc
import Tiered.Proofs.Writes

/-!
# Accesses that may fail

Stages that read and write at numbers, or take one number from another, are told once more with
results in `Option`: reading is `xs[i]?`, and an access out of range or a difference below zero is
the end. Such a stage gets through, with the result of the plain one, if every single step does and
keeps what the next one needs (`foldlM_eq_some`, `mapM_eq_some`).
-/

namespace Tiered

variable {α β : Type}

/-- A difference, unless it is below zero. -/
def minus? (a b : Nat) : Option Nat := if b ≤ a then some (a - b) else none

theorem minus?_eq {a b : Nat} (h : b ≤ a) : minus? a b = some (a - b) := if_pos h

/-- Writes an entry that is there. -/
def write? (a : Array α) (i : Nat) (x : α) : Option (Array α) :=
  if i < a.size then some (a.setIfInBounds i x) else none

theorem write?_eq {a : Array α} {i : Nat} (h : i < a.size) (x : α) :
    write? a i x = some (a.setIfInBounds i x) := if_pos h

/-- Changes an entry that is there. -/
def modify? (a : Array α) (i : Nat) (f : α → α) : Option (Array α) :=
  if i < a.size then some (a.modify i f) else none

theorem modify?_eq {a : Array α} {i : Nat} (h : i < a.size) (f : α → α) :
    modify? a i f = some (a.modify i f) := if_pos h

/-- Writes an entry of a list. -/
def set? (l : List α) (i : Nat) (x : α) : Option (List α) :=
  if i < l.length then some (l.set i x) else none

theorem set?_eq {l : List α} {i : Nat} (h : i < l.length) (x : α) :
    set? l i x = some (l.set i x) := if_pos h

/-- An entry that is there is read without a default. -/
theorem getElem?_of_lt {a : Array α} {i : Nat} (h : i < a.size) (d : α) :
    a[i]? = some (a.getD i d) := by
  rw [getD_of_lt h, Array.getElem?_eq_getElem h]

/-- So is an entry of a list. -/
theorem getElem?_eq_getD {l : List α} {i : Nat} (h : i < l.length) (d : α) :
    l[i]? = some (l.getD i d) := by
  rw [List.getD_eq_getElem _ _ h, List.getElem?_eq_getElem h]

/-- A step that gets through leaves the rest to do. -/
theorem bind_of_eq_some {x : Option α} {a : α} (h : x = some a) (f : α → Option β) :
    (x >>= f) = f a := by
  rw [h]
  rfl

/-- A fold gets through if every step does, where what the steps need is kept by them. The states
of the one stand for those of the other. -/
theorem foldlM_eq_some_of {γ : Type} (r : γ → β) {P : γ → Prop} {f : β → α → Option β}
    {g : γ → α → γ} {l : List α}
    (hstep : ∀ c, P c → ∀ x ∈ l, f (r c) x = some (r (g c x)) ∧ P (g c x)) {c : γ} (hc : P c) :
    l.foldlM f (r c) = some (r (l.foldl g c)) ∧ P (l.foldl g c) := by
  induction l generalizing c with
  | nil => exact ⟨rfl, hc⟩
  | cons x rest ih =>
    obtain ⟨hx, hkept⟩ := hstep c hc x List.mem_cons_self
    rw [List.foldlM_cons, hx, List.foldl_cons]
    exact ih (fun c hc y hy => hstep c hc y (List.mem_cons_of_mem _ hy)) hkept

theorem foldlM_eq_some {P : β → Prop} {f : β → α → Option β} {g : β → α → β} {l : List α}
    (hstep : ∀ b, P b → ∀ x ∈ l, f b x = some (g b x) ∧ P (g b x)) {b : β} (hb : P b) :
    l.foldlM f b = some (l.foldl g b) ∧ P (l.foldl g b) :=
  foldlM_eq_some_of id hstep hb

/-- A fold gets through if every step does, where what is kept is told by the entries so far. -/
theorem exists_foldlM_eq {P : List α → β → Prop} {f : β → α → Option β} {l : List α}
    (hstep : ∀ done b, P done b → ∀ x ∈ l, ∃ c, f b x = some c ∧ P (done ++ [x]) c) {b : β}
    (hb : P [] b) : ∃ c, l.foldlM f b = some c ∧ P l c := by
  induction l using List.reverseRecOn with
  | nil => exact ⟨b, rfl, hb⟩
  | append_singleton l x ih =>
    obtain ⟨c, hc, hkept⟩ := ih fun done b hb y hy =>
      hstep done b hb y (List.mem_append_left _ hy)
    obtain ⟨d, hd, hlast⟩ := hstep l c hkept x (List.mem_append_right _ List.mem_cons_self)
    refine ⟨d, ?_, hlast⟩
    rw [List.foldlM_append, hc]
    exact bind_of_eq_some hd _

theorem mapM_eq_some {f : α → Option β} {g : α → β} {l : List α} (h : ∀ x ∈ l, f x = some (g x)) :
    l.mapM f = some (l.map g) := by
  induction l with
  | nil => rfl
  | cons x rest ih =>
    rw [List.mapM_cons, h x List.mem_cons_self, ih fun y hy => h y (List.mem_cons_of_mem _ hy)]
    rfl

theorem filterM_eq_some {p : α → Option Bool} {q : α → Bool} {l : List α}
    (h : ∀ x ∈ l, p x = some (q x)) : l.filterM p = some (l.filter q) := by
  have hacc : ∀ acc, l.filterAuxM p acc = some ((l.filter q).reverse ++ acc) := by
    induction l with
    | nil => exact fun _ => rfl
    | cons x rest ih =>
      intro acc
      rw [List.filterAuxM, h x List.mem_cons_self, Option.bind_eq_bind, Option.bind_some,
        ih fun y hy => h y (List.mem_cons_of_mem _ hy)]
      cases hx : q x <;> simp [hx]
  rw [List.filterM, hacc]
  simp

/-- A loop over numbers gets through a row of states. -/
theorem foldlM_range_eq_some {f : β → Nat → Option β} {n : Nat} (state : Nat → β)
    (h : ∀ i < n, f (state i) i = some (state (i + 1))) :
    (List.range n).foldlM f (state 0) = some (state n) := by
  induction n with
  | zero => rfl
  | succ n ih =>
    rw [List.range_succ, List.foldlM_append, ih fun i hi => h i (Nat.lt_succ_of_lt hi)]
    exact bind_of_eq_some (h n (Nat.lt_succ_self n)) _

/-- So does a loop over entries and their numbers. -/
theorem foldlM_zipIdx_eq_some {f : β → α × Nat → Option β} {l : List α} (state : Nat → β)
    (h : ∀ i x, l[i]? = some x → f (state i) (x, i) = some (state (i + 1))) :
    l.zipIdx.foldlM f (state 0) = some (state l.length) := by
  induction l using List.reverseRecOn with
  | nil => rfl
  | append_singleton l x ih =>
    have hfront : ∀ i y, l[i]? = some y → (l ++ [x])[i]? = some y := fun i y hy => by
      rwa [List.getElem?_append_left (List.getElem?_eq_some_iff.mp hy).1]
    rw [List.zipIdx_append, List.foldlM_append, ih fun i y hy => h i y (hfront i y hy)]
    have hlast := h l.length x List.getElem?_concat_length
    simpa using hlast

/-- Writes values at places that are there, from the first to the last. -/
def writes? (a : Array α) (entries : List (Nat × α)) : Option (Array α) :=
  entries.foldlM (fun a e => write? a e.1 e.2) a

theorem writes?_eq {a : Array α} {entries : List (Nat × α)} (h : ∀ e ∈ entries, e.1 < a.size) :
    writes? a entries = some (writes a entries) := by
  refine (foldlM_eq_some (P := fun b : Array α => b.size = a.size) ?_ rfl).1
  intro b hsize e he
  exact ⟨write?_eq (hsize ▸ h e he) e.2, Array.size_setIfInBounds.trans hsize⟩

/-- Notes where nodes stand that all have an entry. -/
def Layering.note? (places : Array Nat) (nodes : List Nat) : Option (Array Nat) :=
  writes? places nodes.zipIdx

theorem Layering.note?_eq {places : Array Nat} {nodes : List Nat}
    (h : ∀ v ∈ nodes, v < places.size) : note? places nodes = some (note places nodes) :=
  writes?_eq fun _ he => h _ (List.fst_mem_of_mem_zipIdx he)

end Tiered
