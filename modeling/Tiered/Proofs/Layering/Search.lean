import Tiered.Proofs.Layering.Exchanges

/-!
# The search for few crossings tells the truth

* `Improves`: nothing changed, or there are fewer crossings now, as after every pass of exchanges;
* `transpose_settles`: so passes come to an end, and the last of them changes nothing;
* `Search.Truthful`: the number that a search holds is that of its best arrangement, and at most
  that of the first one.
-/

namespace Tiered.Layering.Layered

variable {g : Layered}

/-! ## Exchanges -/

/-- Nothing changed, or there are fewer crossings. -/
def Improves (g : Layered) (layers next : Layers) : Prop :=
  next = layers ∨ g.crossings next < g.crossings layers

/-- One pass of exchanges over all layers. -/
def pass (g : Layered) (layers : Layers) : Layers := g.exchangeFrom (g.places layers) layers

theorem pass_improves (hg : g.Joined) {layers : Layers} (h : g.Complete layers) :
    g.Improves layers (g.pass layers) := by
  obtain ⟨hround, -⟩ := round_eq hg h
  by_cases hless : g.crossings (g.pass layers) < g.crossings layers
  · exact .inr hless
  · have hflag : (g.round layers).2 = false := by
      rw [hround]
      exact decide_eq_false hless
    obtain ⟨hsame, -⟩ := not_pays_of_round hflag
    rw [hround] at hsame
    exact .inl hsame

/-- Passes are made until one changes nothing. -/
inductive Settles (g : Layered) : Layers → Layers → Prop
  | still {layers : Layers} (h : g.pass layers = layers) : Settles g layers layers
  | again {layers final : Layers} (hchange : g.pass layers ≠ layers)
      (h : Settles g (g.pass layers) final) : Settles g layers final

/-- **Exchanging comes to an end.** A pass that changes something leaves fewer crossings. -/
theorem transpose_settles (hg : g.Joined) {layers : Layers} (h : g.Complete layers) :
    g.Settles layers (g.transpose layers) := by
  fun_induction transpose g layers with
  | case1 layers next hless ih =>
    refine .again (fun hsame => ?_) (ih (h.permuted (g.exchangeFrom_permuted _ _)))
    have hnext : next = layers := hsame
    rw [hnext] at hless
    exact Nat.lt_irrefl _ hless
  | case2 layers next hless =>
    have hnext : next = layers := (pass_improves hg h).resolve_right hless
    rw [hnext]
    exact .still hnext

/-! ## The best arrangement -/

/-- The number that a search holds is that of its best arrangement, and at most that of the first
one. -/
structure Search.Truthful (g : Layered) (first : Layers) (s : Search) : Prop where
  fewest : s.fewest = g.crossings s.best
  most : s.fewest ≤ g.crossings first

theorem Search.Truthful.step {first : Layers} {s : Search} (h : s.Truthful g first) :
    (s.step g).Truthful g first := by
  unfold Search.step
  dsimp only
  split
  · rename_i hless
    exact ⟨rfl, Nat.le_trans (Nat.le_of_lt hless) h.most⟩
  · exact ⟨h.fewest, h.most⟩

theorem Search.Truthful.run {first : Layers} {s : Search} (h : s.Truthful g first)
    (sweeps : Nat) : (Search.run g sweeps s).Truthful g first := by
  induction sweeps generalizing s with
  | zero => exact h
  | succ sweeps ih =>
    unfold Search.run
    split
    · exact ih h.step
    · exact h

theorem minimize_truthful (g : Layered) (layers : Layers) :
    (g.minimize layers).2 = g.crossings (g.minimize layers).1 ∧
      (g.minimize layers).2 ≤ g.crossings layers := by
  have hstart : Search.Truthful g layers
      { layers, best := layers, fewest := g.crossings layers } := ⟨rfl, Nat.le_refl _⟩
  obtain ⟨hfewest, hmost⟩ := hstart.run maxSweeps
  exact ⟨hfewest, hmost⟩

end Tiered.Layering.Layered
