import Mathlib.Logic.Relation
import Tiered.Proofs.Layering.Crossings
import Tiered.Proofs.Layering.Ordering

/-!
# Exchanges end where none pays

* `Pays`: an exchange of two neighbours that leaves fewer crossings, by exactly what their own
  segments lose (`Swaps.crossings`);
* `round`: one look at all neighbours, with the places noted afresh before each and a flag for
  whether any were exchanged;
* `round_eq`: a round makes the same exchanges as going through each layer with places noted once,
  and its flag is up exactly if that leaves fewer crossings;
* `Loops`: rounds are made until one leaves the flag down; `loops_transpose`: this comes to an end,
  with the arrangement that `transpose` gives;
* `not_pays_of_round`: no exchange pays where a round leaves the flag down.
-/

namespace Tiered.Layering.Layered

variable {g : Layered}

/-! ## Exchanges that pay -/

/-- Two neighbours of a layer are exchanged because their segments cross less often then. -/
inductive Pays (g : Layered) (layers next : Layers) : Prop
  | mk {v w : Nat} (hs : Swaps v w layers next)
      (hpays : g.pairCrossings (g.places layers) w v < g.pairCrossings (g.places layers) v w) :
      Pays g layers next

theorem Pays.complete {layers next : Layers} (h : g.Pays layers next) (hc : g.Complete layers) :
    g.Complete next := by
  obtain ⟨hs, -⟩ := h
  exact hs.complete hc

/-- An exchange changes the crossings by the difference of what the two nodes do in either order. -/
theorem Swaps.crossings (hg : g.Joined) {layers next : Layers} {v w : Nat}
    (h : g.Complete layers) (hs : Swaps v w layers next) :
    g.crossings next + g.pairCrossings (g.places layers) v w =
      g.crossings layers + g.pairCrossings (g.places layers) w v := by
  rw [crossings_eq hg h, crossings_eq hg (hs.complete h)]
  exact crossingPairs_exchange hg h hs

theorem Pays.crossings_lt (hg : g.Joined) {layers next : Layers} (h : g.Pays layers next)
    (hc : g.Complete layers) : g.crossings next < g.crossings layers := by
  obtain ⟨hs, hpays⟩ := h
  have := hs.crossings hg hc
  omega

/-! ## Rounds -/

/-- Looks at the nodes at `i - 1` and `i` of layer `r` and exchanges them if that pays. If it does
the flag goes up. -/
def consider (g : Layered) (r : Nat) (s : Layers × Bool) (i : Nat) : Layers × Bool :=
  let layer := s.1.getD r []
  let v := layer.getD (i - 1) 0
  let w := layer.getD i 0
  let places := g.places s.1
  if g.pairCrossings places w v < g.pairCrossings places v w then
    (s.1.set r ((layer.set (i - 1) w).set i v), true)
  else s

/-- Looks at all neighbours of layer `r`, from its first two nodes on. -/
def considerLayer (g : Layered) (s : Layers × Bool) (r : Nat) : Layers × Bool :=
  (List.range' 1 ((s.1.getD r []).length - 1)).foldl (g.consider r) s

/-- Looks at all layers from the top, with the flag down at first. -/
def round (g : Layered) (layers : Layers) : Layers × Bool :=
  (List.range layers.length).foldl g.considerLayer (layers, false)

/-- What may happen on one look: nothing, or an exchange that pays, and then the flag is up. -/
inductive Looks (g : Layered) : Layers × Bool → Layers × Bool → Prop
  | pass (s : Layers × Bool) : Looks g s s
  | exchange {layers next : Layers} {flag : Bool} (h : g.Pays layers next) :
      Looks g (layers, flag) (next, true)

/-- Whatever was looked at, the flag that was down is up exactly if something changed, and then
there are fewer crossings. -/
theorem Looks.run (hg : g.Joined) {s t : Layers × Bool} (h : Relation.ReflTransGen g.Looks s t)
    (hc : g.Complete s.1) : g.Complete t.1 ∧ Relation.ReflTransGen g.Pays s.1 t.1 ∧
      (t = s ∨ t.2 = true ∧ g.crossings t.1 < g.crossings s.1) := by
  induction h with
  | refl => exact ⟨hc, .refl, .inl rfl⟩
  | tail _ hlook ih =>
    obtain ⟨hcomplete, hpays, hflag⟩ := ih
    cases hlook with
    | pass => exact ⟨hcomplete, hpays, hflag⟩
    | exchange hpay =>
      refine ⟨hpay.complete hcomplete, hpays.tail hpay, .inr ⟨rfl, ?_⟩⟩
      have hfewer := hpay.crossings_lt hg hcomplete
      rcases hflag with rfl | ⟨-, hless⟩
      · exact hfewer
      · exact hfewer.trans hless

/-- What a look at two neighbours does, by where they are. -/
theorem consider_eq (up down : Layers) (front back : List Nat) (v w : Nat) (flag : Bool) :
    g.consider up.length (up ++ (front ++ v :: w :: back) :: down, flag) (front.length + 1) =
      if g.pairCrossings (g.places (up ++ (front ++ v :: w :: back) :: down)) w v <
          g.pairCrossings (g.places (up ++ (front ++ v :: w :: back) :: down)) v w then
        (up ++ (front ++ w :: v :: back) :: down, true)
      else (up ++ (front ++ v :: w :: back) :: down, flag) := by
  have hlayer : (up ++ (front ++ v :: w :: back) :: down).getD up.length [] =
      front ++ v :: w :: back := by
    simp [List.getD_eq_getElem?_getD]
  have hfirst : (front ++ v :: w :: back).getD (front.length + 1 - 1) 0 = v := by
    simp [List.getD_eq_getElem?_getD]
  have hsecond : (front ++ v :: w :: back).getD (front.length + 1) 0 = w := by
    simp [List.getD_eq_getElem?_getD]
  have hexchanged : (up ++ (front ++ v :: w :: back) :: down).set up.length
      (((front ++ v :: w :: back).set (front.length + 1 - 1) w).set (front.length + 1) v) =
        up ++ (front ++ w :: v :: back) :: down := by
    simp
  simp only [consider, hlayer, hfirst, hsecond, hexchanged]

theorem Looks.consider (up down : Layers) (front back : List Nat) (v w : Nat) (flag : Bool) :
    g.Looks (up ++ (front ++ v :: w :: back) :: down, flag)
      (g.consider up.length (up ++ (front ++ v :: w :: back) :: down, flag)
        (front.length + 1)) := by
  rw [consider_eq]
  split
  · rename_i hpays
    exact .exchange (.mk (.mk up down front back) hpays)
  · exact .pass _

/-! ## Places noted once a layer -/

/-- What an exchange changes at two nodes of a layer depends on the places in other layers. -/
theorem pairCrossings_congr (hg : g.Joined) {places other : Array Nat} {r v w : Nat}
    (hsame : ∀ x < g.size, g.rankOf x ≠ r → places.getD x 0 = other.getD x 0)
    (hv : v < g.size) (hw : w < g.size) (hrankv : g.rankOf v = r) (hrankw : g.rankOf w = r) :
    g.pairCrossings places v w = g.pairCrossings other v w := by
  have habove : ∀ u < g.size, g.rankOf u = r → ∀ x ∈ g.above u,
      places.getD x 0 = other.getD x 0 := by
    intro u hu hranku x hx
    obtain ⟨hsize, hrank⟩ := mem_above hg hu hx
    exact hsame x hsize (by omega)
  have hbelow : ∀ u < g.size, g.rankOf u = r → ∀ x ∈ g.below u,
      places.getD x 0 = other.getD x 0 := by
    intro u hu hranku x hx
    obtain ⟨hsize, hrank⟩ := mem_below hg hu hx
    exact hsame x hsize (by omega)
  rw [pairCrossings_eq_crossSum, pairCrossings_eq_crossSum]
  congr 1
  · refine crossSum_congr fun x hx y hy => ?_
    rw [habove v hv hrankv x hx, habove w hw hrankw y hy]
  · refine crossSum_congr fun x hx y hy => ?_
    rw [hbelow v hv hrankv x hx, hbelow w hw hrankw y hy]

/-- Going through a layer with places noted before, as long as they are right in all others, makes
the exchanges that are made with places noted afresh. -/
theorem foldl_consider (hg : g.Joined) {places : Array Nat} {up down : Layers}
    (front : List Nat) {v : Nat} {back : List Nat} (flag : Bool)
    (h : g.Complete (up ++ (front ++ v :: back) :: down))
    (hplaces : ∀ x < g.size, g.rankOf x ≠ up.length →
      places.getD x 0 = g.place (up ++ (front ++ v :: back) :: down) x) :
    ∃ raised, (List.range' (front.length + 1) back.length).foldl (g.consider up.length)
        (up ++ (front ++ v :: back) :: down, flag) =
          (up ++ (front ++ g.exchange places (v :: back)) :: down, raised) ∧
      Relation.ReflTransGen g.Looks (up ++ (front ++ v :: back) :: down, flag)
        (up ++ (front ++ g.exchange places (v :: back)) :: down, raised) := by
  induction back generalizing front v flag with
  | nil =>
    have hlast : g.exchange places [v] = [v] := by unfold exchange; rfl
    rw [hlast]
    exact ⟨flag, rfl, .refl⟩
  | cons w back ih =>
    have hs : Swaps v w (up ++ (front ++ v :: w :: back) :: down)
        (up ++ (front ++ w :: v :: back) :: down) := .mk up down front back
    obtain ⟨hv, hw, hrankw⟩ := hs.nodes h
    have hrankv := ((mem_layer h rfl (v := v)).mp (by simp)).2
    have hwv := pairCrossings_congr hg hplaces hw hv (hrankw.trans hrankv) hrankv
    have hvw := pairCrossings_congr hg hplaces hv hw hrankv (hrankw.trans hrankv)
    have hlook := Looks.consider (g := g) up down front back v w flag
    rw [List.length_cons, List.range'_succ, List.foldl_cons]
    rw [consider_eq] at hlook ⊢
    unfold exchange
    rw [hwv, hvw]
    split
    · rename_i hpays
      rw [if_pos hpays] at hlook
      have hnext := hs.complete h
      obtain ⟨raised, hfold, hrun⟩ := ih (front ++ [w]) (v := v) true (by simpa using hnext) (by
        intro x hx hrank
        rw [hplaces x hx hrank, place_replace h hnext hx hrank]
        simp)
      refine ⟨raised, ?_, ?_⟩
      · simpa using hfold
      · exact .head hlook (by simpa using hrun)
    · rename_i hpays
      rw [if_neg hpays] at hlook
      obtain ⟨raised, hfold, hrun⟩ := ih (front ++ [v]) (v := w) flag (by simpa using h)
        (by simpa using hplaces)
      exact ⟨raised, by simpa using hfold, by simpa using hrun⟩

/-- After a layer was gone through, its new places are noted. -/
theorem getD_note {places : Array Nat} {up down : Layers} {layer : List Nat}
    (h : g.Complete (up ++ layer :: down)) (hsize : places.size = g.size)
    (hplaces : ∀ x < g.size, g.rankOf x ≠ up.length →
      places.getD x 0 = g.place (up ++ layer :: down) x) :
    ∀ x < g.size, (note places layer).getD x 0 = g.place (up ++ layer :: down) x := by
  intro x hx
  change (writes places layer.zipIdx).getD x 0 = _
  by_cases hrank : g.rankOf x = up.length
  · have hmem : x ∈ layer := (mem_layer h rfl).mpr ⟨hx, hrank⟩
    obtain ⟨i, hi, rfl⟩ := List.mem_iff_getElem.mp hmem
    rw [place, getD_places h (by simp) hi]
    refine getD_writes_of_mem ?_ ?_ (by omega) 0
    · rw [List.zipIdx_map_fst]
      have hflat := List.nodup_flatten.mp h.nodup_flatten
      exact hflat.1 layer (by simp)
    · exact List.mem_zipIdx_iff_getElem?.mpr (List.getElem?_eq_getElem hi)
  · rw [getD_writes_of_notMem, hplaces x hx hrank]
    rw [List.zipIdx_map_fst]
    exact fun hmem => hrank ((mem_layer h rfl).mp hmem).2

theorem considerLayer_eq (hg : g.Joined) {places : Array Nat} {up down : Layers} {layer : List Nat}
    (flag : Bool) (h : g.Complete (up ++ layer :: down))
    (hplaces : ∀ x < g.size, g.rankOf x ≠ up.length →
      places.getD x 0 = g.place (up ++ layer :: down) x) :
    ∃ raised, g.considerLayer (up ++ layer :: down, flag) up.length =
        (up ++ g.exchange places layer :: down, raised) ∧
      Relation.ReflTransGen g.Looks (up ++ layer :: down, flag)
        (up ++ g.exchange places layer :: down, raised) := by
  have hlayer : (up ++ layer :: down).getD up.length [] = layer := by
    simp [List.getD_eq_getElem?_getD]
  unfold considerLayer
  rw [hlayer]
  cases layer with
  | nil =>
    have hnone : g.exchange places [] = [] := by unfold exchange; rfl
    rw [hnone]
    exact ⟨flag, rfl, .refl⟩
  | cons v back => exact foldl_consider hg [] flag h hplaces

theorem foldl_considerLayer (hg : g.Joined) (places : Array Nat) (up : Layers) {down : Layers}
    (flag : Bool) (h : g.Complete (up ++ down)) (hsize : places.size = g.size)
    (hplaces : ∀ x < g.size, places.getD x 0 = g.place (up ++ down) x) :
    ∃ raised, (List.range' up.length down.length).foldl g.considerLayer (up ++ down, flag) =
        (up ++ g.exchangeFrom places down, raised) ∧
      Relation.ReflTransGen g.Looks (up ++ down, flag)
        (up ++ g.exchangeFrom places down, raised) := by
  induction down generalizing up places flag with
  | nil => exact ⟨flag, rfl, .refl⟩
  | cons layer down ih =>
    obtain ⟨halfway, hlayer, hlooks⟩ := considerLayer_eq hg flag h fun x hx _ => hplaces x hx
    have hnext : g.Complete (up ++ g.exchange places layer :: down) :=
      h.permuted (List.rel_append (Permuted.refl up)
        (.cons (g.exchange_perm places layer) (Permuted.refl down)))
    have hnoted := getD_note hnext hsize fun x hx hrank => by
      rw [hplaces x hx, place_replace h hnext hx hrank]
    obtain ⟨raised, hfold, hrun⟩ := ih (note places (g.exchange places layer))
      (up ++ [g.exchange places layer]) halfway (by simpa using hnext)
      (by
        change (writes places (g.exchange places layer).zipIdx).size = g.size
        rw [size_writes, hsize])
      (by simpa using hnoted)
    refine ⟨raised, ?_, hlooks.trans ?_⟩
    · rw [List.length_cons, List.range'_succ, List.foldl_cons, hlayer]
      simpa [exchangeFrom] using hfold
    · simpa [exchangeFrom] using hrun

/-- A round goes through the layers as they are gone through with places noted once a layer. Its
flag says whether there are fewer crossings now. -/
theorem round_eq (hg : g.Joined) {layers : Layers} (h : g.Complete layers) :
    g.round layers = (g.exchangeFrom (g.places layers) layers,
        decide (g.crossings (g.exchangeFrom (g.places layers) layers) < g.crossings layers)) ∧
      Relation.ReflTransGen g.Pays layers (g.exchangeFrom (g.places layers) layers) := by
  obtain ⟨raised, hround, hrun⟩ :=
    foldl_considerLayer hg (g.places layers) [] false h (g.size_places layers) fun x _ => rfl
  obtain ⟨-, hpays, hflag⟩ := Looks.run hg hrun h
  refine ⟨?_, hpays⟩
  have hraised : raised =
      decide (g.crossings (g.exchangeFrom (g.places layers) layers) < g.crossings layers) := by
    rcases hflag with hsame | ⟨hup, hless⟩
    · obtain ⟨hnext, hdown⟩ := Prod.mk.inj hsame
      rw [List.nil_append] at hnext
      rw [hdown, hnext]
      simp
    · exact hup.trans (decide_eq_true hless).symm
  rw [round, List.range_eq_range', ← hraised]
  exact hround

/-! ## Where no exchange pays -/

/-- Where the flag is down after some looks none of them changed anything, if one look that leaves
it down never does. -/
theorem foldl_look_eq_self {α β : Type} {look : α × Bool → β → α × Bool}
    (hlook : ∀ s x, (look s x).2 = false → look s x = s) (xs : List β) {s : α × Bool}
    (h : (xs.foldl look s).2 = false) : xs.foldl look s = s ∧ ∀ x ∈ xs, look s x = s := by
  induction xs generalizing s with
  | nil => exact ⟨rfl, fun _ hx => nomatch hx⟩
  | cons x xs ih =>
    obtain ⟨hrest, hall⟩ := ih h
    have hfirst : look s x = s := by
      refine hlook s x ?_
      rw [List.foldl_cons, hrest] at h
      exact h
    rw [hfirst] at hrest hall
    exact ⟨(congrArg (xs.foldl look) hfirst).trans hrest, List.forall_mem_cons.mpr ⟨hfirst, hall⟩⟩

theorem consider_eq_self (r : Nat) (s : Layers × Bool) (i : Nat)
    (h : (g.consider r s i).2 = false) : g.consider r s i = s := by
  unfold consider at h ⊢
  dsimp only at h ⊢
  split
  · rename_i hpays
    rw [if_pos hpays] at h
    exact nomatch h
  · rfl

theorem considerLayer_eq_self (s : Layers × Bool) (r : Nat)
    (h : (g.considerLayer s r).2 = false) : g.considerLayer s r = s :=
  (foldl_look_eq_self (consider_eq_self r) _ h).1

/-- A round that leaves the flag down has looked at all neighbours, and no exchange pays. -/
theorem not_pays_of_round {layers : Layers} (h : (g.round layers).2 = false) :
    (g.round layers).1 = layers ∧ ∀ next, ¬ g.Pays layers next := by
  obtain ⟨hsame, hlayers⟩ := foldl_look_eq_self considerLayer_eq_self _ h
  refine ⟨congrArg Prod.fst hsame, ?_⟩
  rintro next ⟨hs, hpays⟩
  obtain ⟨up, down, front, back⟩ := hs
  rename_i v w
  have hlayer := hlayers up.length (by simp)
  have hlook := (foldl_look_eq_self (consider_eq_self up.length) _ (congrArg Prod.snd hlayer)).2
    (front.length + 1) (by
      rw [List.mem_range'_1]
      simp [List.getD_eq_getElem?_getD]
      omega)
  rw [consider_eq, if_pos hpays] at hlook
  exact nomatch (Prod.mk.inj hlook).2

/-! ## The loop -/

/-- Rounds are made as long as the flag is up after them. -/
inductive Loops (g : Layered) : Layers → Layers → Prop
  | rest {layers next : Layers} (h : g.round layers = (next, false)) : Loops g layers next
  | again {layers next final : Layers} (h : g.round layers = (next, true))
      (hrest : Loops g next final) : Loops g layers final

/-- Rounds lead to one arrangement at most. -/
theorem Loops.unique {layers final other : Layers} (h : g.Loops layers final)
    (k : g.Loops layers other) : final = other := by
  induction h with
  | rest h =>
    cases k with
    | rest k => exact congrArg Prod.fst (h.symm.trans k)
    | again k => exact nomatch h.symm.trans k
  | again h _ ih =>
    cases k with
    | rest k => exact nomatch h.symm.trans k
    | again k hrest =>
      obtain ⟨rfl, -⟩ := Prod.mk.inj (h.symm.trans k)
      exact ih hrest

theorem Loops.last {layers final : Layers} (h : g.Loops layers final) :
    ∀ next, ¬ g.Pays final next := by
  induction h with
  | rest h =>
    obtain ⟨hsame, hstill⟩ := not_pays_of_round (congrArg Prod.snd h)
    rw [h] at hsame
    rwa [← hsame] at hstill
  | again _ _ ih => exact ih

/-- Rounds come to an end, since each that leaves the flag up lowers the number of crossings. -/
theorem loops_transpose (hg : g.Joined) {layers : Layers} (h : g.Complete layers) :
    g.Loops layers (g.transpose layers) ∧
      Relation.ReflTransGen g.Pays layers (g.transpose layers) := by
  fun_induction transpose g layers with
  | case1 layers next hless ih =>
    obtain ⟨hround, hpays⟩ := round_eq hg h
    obtain ⟨hloops, hrest⟩ := ih (h.permuted (g.exchangeFrom_permuted _ _))
    rw [decide_eq_true hless] at hround
    exact ⟨.again hround hloops, hpays.trans hrest⟩
  | case2 layers next hless =>
    obtain ⟨hround, hpays⟩ := round_eq hg h
    rw [decide_eq_false hless] at hround
    exact ⟨.rest hround, hpays⟩

/-- What going through the layers until nothing changes does to an arrangement. -/
structure Transposed (g : Layered) (layers : Layers) : Prop where
  /-- The loop ends, and with nothing else than what `transpose` gives. -/
  loop : ∀ final, g.Loops layers final ↔ final = g.transpose layers
  exchanges : Relation.ReflTransGen g.Pays layers (g.transpose layers)
  /-- Each exchange leaves fewer crossings, by exactly what the two nodes have less of. -/
  lowers : ∀ {before after : Layers} {v w : Nat}, Permuted before layers → Swaps v w before after →
    g.pairCrossings (g.places before) w v < g.pairCrossings (g.places before) v w →
      g.crossings after < g.crossings before ∧
        g.crossings before - g.crossings after =
          g.pairCrossings (g.places before) v w - g.pairCrossings (g.places before) w v
  permuted : Permuted (g.transpose layers) layers
  /-- At the end no exchange of neighbours leaves fewer. -/
  best : ∀ {v w : Nat} {next : Layers}, Swaps v w (g.transpose layers) next →
    g.crossings (g.transpose layers) ≤ g.crossings next

/-- **Exchanging neighbours ends at a local optimum.** From every arrangement the loop comes to an
end, through exchanges that each leave fewer crossings, where no further one would. -/
theorem transposed_ofEdges {ranks : Array Nat} {edges : List (Option Arc)}
    (h : LeadDown ranks edges) {layers : Layers}
    (hp : Permuted layers (ofEdges ranks edges).arrange) :
    (ofEdges ranks edges).Transposed layers := by
  have hg := joined_ofEdges h
  have hcomplete := (complete_arrange (ofEdges ranks edges)).permuted hp
  obtain ⟨hloops, hexchanges⟩ := loops_transpose hg hcomplete
  have hpermuted := (ofEdges ranks edges).transpose_permuted layers
  constructor
  · intro final
    constructor
    · exact fun hfinal => hfinal.unique hloops
    · rintro rfl
      exact hloops
  · exact hexchanges
  · intro before after v w hbefore hs hpays
    have hchange := hs.crossings hg (hcomplete.permuted hbefore)
    omega
  · exact hpermuted
  · intro v w next hs
    have hchange := hs.crossings hg (hcomplete.permuted hpermuted)
    have hstill := Nat.not_lt.mp fun hpays => hloops.last next (.mk hs hpays)
    omega

/-- Two segments that cross are set right in the first round, and the second round is the last. -/
theorem transposed_ofEdges_twist :
    LeadDown #[0, 0, 1, 1] [some (0, 3), some (1, 2)] ∧
      Permuted [[1, 0], [3, 2]] (ofEdges #[0, 0, 1, 1] [some (0, 3), some (1, 2)]).arrange ∧
      (ofEdges #[0, 0, 1, 1] [some (0, 3), some (1, 2)]).transpose [[1, 0], [3, 2]] =
        [[0, 1], [3, 2]] := by
  have hdown : LeadDown #[0, 0, 1, 1] [some (0, 3), some (1, 2)] := by
    intro a ha
    simp only [List.mem_cons, Option.some.injEq, List.not_mem_nil, or_false] at ha
    rcases ha with rfl | rfl <;> decide
  have hfirst : (ofEdges #[0, 0, 1, 1] [some (0, 3), some (1, 2)]).arrange = [[0, 1], [3, 2]] := by
    rw [arrange, trail, byRank_eq_range (by decide)]
    rfl
  have hp : Permuted [[1, 0], [3, 2]]
      (ofEdges #[0, 0, 1, 1] [some (0, 3), some (1, 2)]).arrange :=
    hfirst ▸ .cons (by decide) (.cons (by decide) .nil)
  have hloops : (ofEdges #[0, 0, 1, 1] [some (0, 3), some (1, 2)]).Loops [[1, 0], [3, 2]]
      [[0, 1], [3, 2]] := .again rfl (.rest rfl)
  exact ⟨hdown, hp, (((transposed_ofEdges hdown hp).loop _).mp hloops).symm⟩

end Tiered.Layering.Layered
