import Tiered.Proofs.Guarded.Layered
import Tiered.Proofs.Layering.Exchanges
import Tiered.Proofs.Layering.Medians

/-!
# Nothing in the search for few crossings can fail

The search as it is made: the places of all nodes are noted afresh before each layer that is sorted
and before each pair that is looked at, and layers and nodes are read at their numbers.

* `sweep?_eq`: sorting layer after layer by medians;
* `round?_eq`, `transpose?_eq`: looking at all pairs until none was exchanged; a round that
  exchanges something and leaves no fewer crossings would be a failure as well;
* `minimize?_eq`: the whole search, from any arrangement of all nodes.
-/

namespace Tiered.Layering.Layered

variable {g : Layered}

/-! ## Sweeps -/

/-- Sorts a layer by its medians, which it has one of for each slot. -/
def reorder? (layer : List Nat) (medians : List (Option Rat)) : Option (List Nat) := do
  let slots ← layer.zipIdx.mapM fun e => do return (e.1, ← medians[e.2]?)
  let movable := slots.filterMap fun (v, m) => m.map (v, ·)
  let sorted := movable.mergeSort fun a b => a.2 ≤ b.2
  return refill slots (sorted.map (·.1))

/-- The median of the places of the neighbours that a table gives a node. -/
def medianOf? (table : Array (List Nat)) (places : Array Nat) (v : Nat) :
    Option (Option Rat) := do
  let ps ← (← table[v]?).mapM (places[·]?)
  checkedMedian? ps.mergeSort

/-- Sorts layer `r`, with the places of all nodes noted afresh. -/
def sweepLayer? (g : Layered) (table : Array (List Nat)) (layers : Layers) (r : Nat) :
    Option Layers := do
  let places ← g.places? layers
  let layer ← layers[r]?
  let sorted ← reorder? layer (← layer.mapM (medianOf? table places))
  return layers.set r sorted

/-- The layers that a sweep sorts, in this order. -/
def sweepOrder (downward : Bool) (depth : Nat) : List Nat :=
  if downward then List.range' 1 (depth - 1) else (List.range (depth - 1)).reverse

def sweep? (g : Layered) (downward : Bool) (layers : Layers) : Option Layers :=
  if layers.length < 2 then some layers
  else (sweepOrder downward layers.length).foldlM
    (g.sweepLayer? (if downward then g.up else g.down)) layers

theorem reorder?_eq {layer : List Nat} {medians : List (Option Rat)}
    (h : medians.length = layer.length) :
    reorder? layer medians = some (reorder layer medians) := by
  have hread : (layer.zipIdx.mapM fun e => do return (e.1, (← medians[e.2]?))) =
      some (layer.zipIdx.map fun e => (e.1, medians.getD e.2 none)) := by
    refine mapM_eq_some fun e he => bind_of_eq_some (getElem?_eq_getD ?_ none) _
    exact h.symm ▸ List.snd_lt_of_mem_zipIdx he
  have hslots : (layer.zipIdx.map fun e => (e.1, medians.getD e.2 none)) = layer.zip medians :=
    List.ext_getElem (by simp [h]) fun i hi hi' => by
      have hi : i < medians.length := by simpa [h] using hi
      simp [hi]
  rw [reorder?, bind_of_eq_some hread, hslots]
  rfl

/-- The medians of a layer are those of places that are right for all nodes. -/
theorem medians_eq {table : Array (List Nat)} {neighbours : Nat → List Nat} {layers : Layers}
    {places : Array Nat} {layer : List Nat}
    (htable : ∀ v ∈ layer, table[v]? = some (neighbours v) ∧ ∀ w ∈ neighbours v, w < g.size)
    (hplaces : ∀ x < g.size, places.getD x 0 = g.place layers x) :
    layer.mapM (medianOf? table (g.places layers)) =
      some (layer.map fun v => median? ((neighbours v).map (places.getD · 0)).mergeSort) := by
  refine mapM_eq_some fun v hv => ?_
  obtain ⟨hread, hbound⟩ := htable v hv
  have hps : (neighbours v).mapM ((g.places layers)[·]?) =
      some ((neighbours v).map (places.getD · 0)) := by
    refine mapM_eq_some fun w hw => ?_
    rw [getElem?_places (hbound w hw), hplaces w (hbound w hw)]
    rfl
  rw [medianOf?, bind_of_eq_some hread, bind_of_eq_some hps]
  exact checkedMedian?_eq (List.pairwise_mergeSort' (· ≤ ·) _)

/-- A layer after sorting. -/
def sortedLayer (neighbours : Nat → List Nat) (places : Array Nat) (layer : List Nat) : List Nat :=
  reorder layer (layer.map fun v => median? ((neighbours v).map (places.getD · 0)).mergeSort)

theorem sortedLayer_perm (neighbours : Nat → List Nat) (places : Array Nat) (layer : List Nat) :
    (sortedLayer neighbours places layer).Perm layer :=
  reorder_perm (List.length_map _)

/-- A table that holds the neighbours of all nodes. -/
structure Table (g : Layered) (table : Array (List Nat)) (neighbours : Nat → List Nat) : Prop where
  read : ∀ v < g.size, table[v]? = some (neighbours v)
  bound : ∀ v < g.size, ∀ w ∈ neighbours v, w < g.size

theorem table_up (hg : g.Joined) (hs : g.Sized) : g.Table g.up g.above :=
  ⟨fun _ hv => hs.getElem?_up hv, fun _ hv _ hw => (mem_above hg hv hw).1⟩

theorem table_down (hg : g.Joined) (hs : g.Sized) : g.Table g.down g.below :=
  ⟨fun _ hv => hs.getElem?_down hv, fun _ hv _ hw => (mem_below hg hv hw).1⟩

section Sweep

variable {table : Array (List Nat)} {neighbours : Nat → List Nat} {places : Array Nat}

theorem complete_sorted (neighbours : Nat → List Nat) (places : Array Nat) {up down : Layers}
    {layer : List Nat} (h : g.Complete (up ++ layer :: down)) :
    g.Complete (up ++ sortedLayer neighbours places layer :: down) :=
  h.permuted (List.rel_append (Permuted.refl up)
    (.cons (sortedLayer_perm neighbours places layer) (Permuted.refl down)))

/-- Sorting a layer with fresh places is sorting it with places that are right, and noting its new
ones makes them right again. -/
theorem sweepLayer?_eq (ht : g.Table table neighbours) {up down : Layers} {layer : List Nat}
    (h : g.Complete (up ++ layer :: down)) (hsize : places.size = g.size)
    (hplaces : ∀ x < g.size, places.getD x 0 = g.place (up ++ layer :: down) x) :
    g.sweepLayer? table (up ++ layer :: down) up.length =
        some (up ++ sortedLayer neighbours places layer :: down) ∧
      ∀ x < g.size, (note places (sortedLayer neighbours places layer)).getD x 0 =
        g.place (up ++ sortedLayer neighbours places layer :: down) x := by
  have hlayer : ∀ v ∈ layer, v < g.size := fun v hv => h.lt_size (by simp) hv
  have hneighbours : ∀ v ∈ layer, table[v]? = some (neighbours v) ∧
      ∀ w ∈ neighbours v, w < g.size := fun v hv =>
    ⟨ht.read v (hlayer v hv), ht.bound v (hlayer v hv)⟩
  have hread : (up ++ layer :: down)[up.length]? = some layer := by simp
  constructor
  · rw [sweepLayer?, bind_of_eq_some (places?_eq h), bind_of_eq_some hread,
      bind_of_eq_some (medians_eq hneighbours hplaces),
      bind_of_eq_some (reorder?_eq (List.length_map _))]
    simp [sortedLayer]
  · have hnext := complete_sorted neighbours places h
    refine getD_note hnext hsize fun x hx hrank => ?_
    rw [hplaces x hx, place_replace h hnext hx hrank]

theorem size_note (places : Array Nat) (layer : List Nat) :
    (note places layer).size = places.size := size_writes places layer.zipIdx

theorem sweepDown?_eq (ht : g.Table table neighbours) (up : Layers) {down : Layers}
    (h : g.Complete (up ++ down)) (hsize : places.size = g.size)
    (hplaces : ∀ x < g.size, places.getD x 0 = g.place (up ++ down) x) :
    (List.range' up.length down.length).foldlM (g.sweepLayer? table) (up ++ down) =
      some (up ++ sweepFrom neighbours places down) := by
  induction down generalizing up places with
  | nil => rfl
  | cons layer down ih =>
    obtain ⟨hlayer, hnoted⟩ := sweepLayer?_eq ht h hsize hplaces
    have hnext := complete_sorted neighbours places h
    have hrest := ih (up ++ [sortedLayer neighbours places layer]) (by simpa using hnext)
      ((size_note places _).trans hsize) (by simpa using hnoted)
    rw [List.length_cons, List.range'_succ, List.foldlM_cons, bind_of_eq_some hlayer]
    simpa [sweepFrom, sortedLayer] using hrest

theorem sweepUp?_eq (ht : g.Table table neighbours) (front back : Layers)
    (h : g.Complete (front.reverse ++ back)) (hsize : places.size = g.size)
    (hplaces : ∀ x < g.size, places.getD x 0 = g.place (front.reverse ++ back) x) :
    (List.range front.length).reverse.foldlM (g.sweepLayer? table) (front.reverse ++ back) =
      some ((sweepFrom neighbours places front).reverse ++ back) := by
  induction front generalizing back places with
  | nil => rfl
  | cons layer front ih =>
    rw [List.reverse_cons, List.append_assoc, List.singleton_append] at h hplaces ⊢
    obtain ⟨hlayer, hnoted⟩ := sweepLayer?_eq ht h hsize hplaces
    have hnext := complete_sorted neighbours places h
    have hrest := ih _ hnext ((size_note _ _).trans hsize) hnoted
    rw [List.length_reverse] at hlayer
    rw [List.length_cons, List.range_succ, List.reverse_append, List.reverse_singleton,
      List.singleton_append, List.foldlM_cons, bind_of_eq_some hlayer, hrest]
    simp [sweepFrom, sortedLayer]

/-- Sweeps get through. -/
theorem sweep?_eq (hg : g.Joined) (hs : g.Sized) (downward : Bool) {layers : Layers}
    (h : g.Complete layers) : g.sweep? downward layers = some (g.sweep downward layers) := by
  rw [sweep?]
  split
  · rename_i hshort
    match layers, hshort with
    | [], _ => cases downward <;> rfl
    | [layer], _ => cases downward <;> rfl
  · rename_i hlong
    cases downward with
    | true =>
      cases layers with
      | nil => simp at hlong
      | cons first rest =>
        exact sweepDown?_eq (table_up hg hs) [first] h (g.size_places _) fun _ _ => rfl
    | false =>
      obtain ⟨front, last, rfl⟩ : ∃ front last, layers = front ++ [last] := by
        rcases List.eq_nil_or_concat' layers with rfl | ⟨front, last, rfl⟩
        · simp at hlong
        · exact ⟨front, last, rfl⟩
      have hup := sweepUp?_eq (table_down hg hs) front.reverse [last]
        (by simpa using h) (g.size_places (front ++ [last]))
        (by rw [List.reverse_reverse]; exact fun _ _ => rfl)
      simpa [sweepOrder, sweep] using hup

end Sweep

/-! ## Exchanges -/

/-- How many of some nodes stand before `x`. -/
def before? (places : Array Nat) (ys : List Nat) (x : Nat) : Option Nat := do
  let others ← ys.mapM (places[·]?)
  let place ← places[x]?
  return others.countP (· < place)

/-- How many segments at two neighbours of a layer cross when `v` stands before `w`. -/
def pairCrossings? (g : Layered) (places : Array Nat) (v w : Nat) : Option Nat := do
  let aboveW ← g.up[w]?
  let above ← (← g.up[v]?).mapM (before? places aboveW)
  let belowW ← g.down[w]?
  let below ← (← g.down[v]?).mapM (before? places belowW)
  return above.sum + below.sum

/-- Looks at the nodes at `i - 1` and `i` of layer `r` and exchanges them if that pays. -/
def consider? (g : Layered) (r : Nat) (s : Layers × Bool) (i : Nat) : Option (Layers × Bool) := do
  let places ← g.places? s.1
  let layer ← s.1[r]?
  let v ← layer[← minus? i 1]?
  let w ← layer[i]?
  let current ← g.pairCrossings? places v w
  let swapped ← g.pairCrossings? places w v
  if swapped < current then return (s.1.set r ((layer.set (i - 1) w).set i v), true)
  else return s

def considerLayer? (g : Layered) (s : Layers × Bool) (r : Nat) : Option (Layers × Bool) := do
  let layer ← s.1[r]?
  (List.range' 1 (layer.length - 1)).foldlM (g.consider? r) s

def round? (g : Layered) (layers : Layers) : Option (Layers × Bool) :=
  (List.range layers.length).foldlM g.considerLayer? (layers, false)

/-- Goes through all layers until nothing was exchanged. -/
def transpose? (g : Layered) (layers : Layers) : Option Layers := do
  let (next, improved) ← g.round? layers
  if improved then
    if _h : g.crossings next < g.crossings layers then transpose? g next else none
  else return next
termination_by g.crossings layers

section Exchange

theorem pairCrossings?_eq (hg : g.Joined) (hs : g.Sized) (layers : Layers) {v w : Nat}
    (hv : v < g.size) (hw : w < g.size) :
    g.pairCrossings? (g.places layers) v w = some (g.pairCrossings (g.places layers) v w) := by
  have hcount : ∀ {xs ys : List Nat}, (∀ x ∈ xs, x < g.size) → (∀ y ∈ ys, y < g.size) →
      xs.mapM (before? (g.places layers) ys) = some (xs.map fun x =>
        ys.countP fun y => (g.places layers).getD y 0 < (g.places layers).getD x 0) := by
    intro xs ys hxs hys
    refine mapM_eq_some fun x hx => ?_
    have hothers : ys.mapM ((g.places layers)[·]?) =
        some (ys.map ((g.places layers).getD · 0)) :=
      mapM_eq_some fun y hy => getElem?_places (hys y hy)
    rw [before?, bind_of_eq_some hothers, bind_of_eq_some (getElem?_places (hxs x hx)),
      List.countP_map]
    rfl
  have hsum : ∀ (xs : List Nat) (f : Nat → Nat),
      (xs.map f).sum = xs.foldr (fun x n => f x + n) 0 := by
    intro xs f
    rw [List.sum, List.foldr_map]
  have habove := hcount (fun x hx => (mem_above hg hv hx).1) fun y hy => (mem_above hg hw hy).1
  have hbelow := hcount (fun x hx => (mem_below hg hv hx).1) fun y hy => (mem_below hg hw hy).1
  rw [pairCrossings?, bind_of_eq_some (hs.getElem?_up hw), bind_of_eq_some (hs.getElem?_up hv),
    bind_of_eq_some habove, bind_of_eq_some (hs.getElem?_down hw),
    bind_of_eq_some (hs.getElem?_down hv), bind_of_eq_some hbelow, hsum, hsum]
  rfl

/-- An entry of a list, what is before it and what is behind it. -/
theorem exists_split {α : Type} {xs : List α} {i : Nat} (hi : i < xs.length) (d : α) :
    ∃ front back, xs = front ++ xs.getD i d :: back ∧ front.length = i := by
  refine ⟨xs.take i, xs.drop (i + 1), ?_, List.length_take_of_le hi.le⟩
  rw [List.getD_eq_getElem _ _ hi, ← List.drop_eq_getElem_cons hi, List.take_append_drop]

theorem consider?_split (hg : g.Joined) (hs : g.Sized) (up down : Layers) (front back : List Nat)
    (v w : Nat) (flag : Bool) (h : g.Complete (up ++ (front ++ v :: w :: back) :: down)) :
    g.consider? up.length (up ++ (front ++ v :: w :: back) :: down, flag) (front.length + 1) =
      some (g.consider up.length (up ++ (front ++ v :: w :: back) :: down, flag)
        (front.length + 1)) := by
  have hread : (up ++ (front ++ v :: w :: back) :: down)[up.length]? =
      some (front ++ v :: w :: back) := by simp
  have hbefore : minus? (front.length + 1) 1 = some front.length :=
    minus?_eq (Nat.le_add_left 1 _)
  have hfirst : (front ++ v :: w :: back)[front.length]? = some v := by simp
  have hsecond : (front ++ v :: w :: back)[front.length + 1]? = some w := by simp
  have hv : v < g.size := h.lt_size (by simp) (by simp : v ∈ front ++ v :: w :: back)
  have hw : w < g.size := h.lt_size (by simp) (by simp : w ∈ front ++ v :: w :: back)
  have hcurrent := pairCrossings?_eq hg hs (up ++ (front ++ v :: w :: back) :: down) hv hw
  have hswapped := pairCrossings?_eq hg hs (up ++ (front ++ v :: w :: back) :: down) hw hv
  rw [consider?, bind_of_eq_some (places?_eq h), bind_of_eq_some hread, bind_of_eq_some hbefore,
    bind_of_eq_some hfirst, bind_of_eq_some hsecond, bind_of_eq_some hcurrent,
    bind_of_eq_some hswapped, consider_eq]
  split
  · simp
  · rfl

/-- A look gets through, and keeps the nodes of each layer. -/
theorem consider?_eq (hg : g.Joined) (hs : g.Sized) {s : Layers × Bool} {r i : Nat}
    (h : g.Complete s.1) (hr : r < s.1.length) (hi : 1 ≤ i)
    (hlast : i < (s.1.getD r []).length) :
    g.consider? r s i = some (g.consider r s i) ∧ Permuted (g.consider r s i).1 s.1 := by
  obtain ⟨layers, flag⟩ := s
  dsimp only at h hr hlast ⊢
  obtain ⟨up, down, hlayers, rfl⟩ := exists_split hr []
  obtain ⟨front, rest, hlayer, hfront⟩ := exists_split hlast 0
  have hprevious : i - 1 < front.length := by omega
  obtain ⟨before, back, hbefore, hlength⟩ := exists_split hprevious 0
  obtain rfl : back = [] := by
    have := congrArg List.length hbefore
    simp only [List.length_append, List.length_cons] at this
    exact List.eq_nil_of_length_eq_zero (by omega)
  obtain rfl : before.length + 1 = i := by omega
  rw [hbefore, List.append_assoc, List.singleton_append] at hlayer
  rw [hlayer] at hlayers
  rw [hlayers] at h ⊢
  refine ⟨consider?_split hg hs _ _ _ _ _ _ flag h, ?_⟩
  rw [consider_eq]
  split
  · exact (Swaps.mk up down before _).permuted
  · exact Permuted.refl _

theorem considerLayer?_eq (hg : g.Joined) (hs : g.Sized) {s : Layers × Bool} {r : Nat}
    (h : g.Complete s.1) (hr : r < s.1.length) :
    g.considerLayer? s r = some (g.considerLayer s r) ∧
      Permuted (g.considerLayer s r).1 s.1 := by
  rw [considerLayer?, bind_of_eq_some (getElem?_eq_getD hr [])]
  refine foldlM_eq_some (P := fun t : Layers × Bool => Permuted t.1 s.1) ?_ (Permuted.refl s.1)
  intro t ht i hi
  obtain ⟨hi, hlast⟩ := List.mem_range'_1.mp hi
  have hlength := (ht.getD r).length_eq
  obtain ⟨hlook, hkept⟩ := consider?_eq hg hs (h.permuted ht) (ht.length_eq.symm ▸ hr) hi
    (by omega)
  exact ⟨hlook, hkept.trans ht⟩

theorem round?_eq (hg : g.Joined) (hs : g.Sized) {layers : Layers} (h : g.Complete layers) :
    g.round? layers = some (g.round layers) := by
  refine (foldlM_eq_some (P := fun t : Layers × Bool => Permuted t.1 layers) ?_
    (Permuted.refl layers)).1
  intro t ht r hr
  obtain ⟨hlook, hkept⟩ := considerLayer?_eq hg hs (h.permuted ht)
    (ht.length_eq.symm ▸ List.mem_range.mp hr)
  exact ⟨hlook, hkept.trans ht⟩

theorem transpose?_eq (hg : g.Joined) (hs : g.Sized) {layers : Layers} (h : g.Complete layers) :
    g.transpose? layers = some (g.transpose layers) := by
  fun_induction transpose g layers with
  | case1 layers next hless ih =>
    obtain ⟨hround, -⟩ := round_eq hg h
    rw [decide_eq_true hless] at hround
    rw [transpose?, round?_eq hg hs h, hround]
    exact (dif_pos hless).trans (ih (h.permuted (g.exchangeFrom_permuted _ _)))
  | case2 layers next hless =>
    obtain ⟨hround, -⟩ := round_eq hg h
    rw [decide_eq_false hless] at hround
    rw [transpose?, round?_eq hg hs h, hround]
    rfl

end Exchange

/-! ## The search -/

def Search.step? (g : Layered) (s : Search) : Option Search := do
  let layers ← g.transpose? (← g.sweep? s.downward s.layers)
  let crossings ← g.crossings? layers
  if crossings < s.fewest then
    return { layers, best := layers, fewest := crossings, stale := 0, downward := !s.downward }
  else return { s with layers, stale := s.stale + 1, downward := !s.downward }

def Search.run? (g : Layered) : Nat → Search → Option Search
  | 0, s => some s
  | sweeps + 1, s =>
    if 0 < s.fewest && s.stale < patience then do run? g sweeps (← s.step? g) else some s

def minimize? (g : Layered) (layers : Layers) : Option (Layers × Nat) := do
  let fewest ← g.crossings? layers
  let found ← Search.run? g maxSweeps { layers, best := layers, fewest }
  return (found.best, found.fewest)

section Search

variable (hg : g.Joined) (hs : g.Sized)

include hg hs

theorem Search.step?_eq {s : Search} (h : g.Complete s.layers) :
    s.step? g = some (s.step g) ∧ g.Complete (s.step g).layers := by
  have hswept := h.permuted (g.sweep_permuted s.downward s.layers)
  have hnext := hswept.permuted (g.transpose_permuted _)
  rw [step?, bind_of_eq_some (sweep?_eq hg hs s.downward h),
    bind_of_eq_some (transpose?_eq hg hs hswept), bind_of_eq_some (crossings?_eq hg hs hnext),
    Search.step]
  split
  · exact ⟨rfl, hnext⟩
  · exact ⟨rfl, hnext⟩

theorem Search.run?_eq (sweeps : Nat) {s : Search} (h : g.Complete s.layers) :
    Search.run? g sweeps s = some (Search.run g sweeps s) := by
  induction sweeps generalizing s with
  | zero => rfl
  | succ sweeps ih =>
    obtain ⟨hstep, hnext⟩ := Search.step?_eq hg hs h
    rw [run?, run]
    split
    · rw [bind_of_eq_some hstep, ih hnext]
    · rfl

/-- **Nothing in the search can fail**, from whatever arrangement of all nodes it starts. -/
theorem minimize?_eq {layers : Layers} (h : g.Complete layers) :
    g.minimize? layers = some (g.minimize layers) := by
  rw [minimize?, bind_of_eq_some (crossings?_eq hg hs h)]
  exact bind_of_eq_some (Search.run?_eq hg hs maxSweeps h) _

end Search
end Tiered.Layering.Layered
