import Tiered.Proofs.Layering.Counting

/-!
# Nothing in making layers can fail

* `build?`: virtual nodes are pushed one after the other, and linked to the node before them;
  `build?_eq`: this gets through and makes the chains and neighbours of `Layered.ofEdges`;
* `walk?`: the first arrangement is found with a stack of nodes to visit; `walk?_cons`: a visit
  takes its node off the stack and leaves the rest as it is, so that the walk passes the nodes in
  the order of `Layered.visit`;
* `firstOrder?_eq`: so it gets through, with the layers of `Layered.arrange`.
-/

namespace Tiered.Layering

/-! ## Building -/

/-- A layered graph that nodes and segments are still added to. -/
structure Building where
  rank : Array Nat
  isVirtual : Array Bool
  up : Array (List Nat)
  down : Array (List Nat)
  chains : List (Option (List Nat))

namespace Building

def start (ranks : Array Nat) : Building :=
  { rank := ranks
    isVirtual := Array.replicate ranks.size false
    up := Array.replicate ranks.size []
    down := Array.replicate ranks.size []
    chains := [] }

/-- Adds a virtual node, which gets the next number. -/
def pushVirtual (b : Building) (rank : Nat) : Building :=
  { b with
    rank := b.rank.push rank
    isVirtual := b.isVirtual.push true
    up := b.up.push []
    down := b.down.push [] }

def link? (b : Building) (upper lower : Nat) : Option Building := do
  let down ← modify? b.down upper (· ++ [lower])
  let up ← modify? b.up lower (· ++ [upper])
  return { b with down, up }

/-- An edge that is on its way down, its chain so far, and the last node of it. -/
structure Thread where
  graph : Building
  chain : List Nat
  last : Nat

/-- Goes on to a virtual node of the next rank. -/
def Thread.extend? (d : Thread) (rank : Nat) : Option Thread := do
  let dummy := d.graph.rank.size
  let graph ← (d.graph.pushVirtual rank).link? d.last dummy
  return { graph, chain := d.chain ++ [dummy], last := dummy }

def Thread.finish? (d : Thread) (lower : Nat) : Option Building := do
  let graph ← d.graph.link? d.last lower
  return { graph with chains := graph.chains ++ [some (d.chain ++ [lower])] }

def addEdge? (b : Building) : Option Arc → Option Building
  | none => some { b with chains := b.chains ++ [none] }
  | some (upper, lower) => do
    let first := (← b.rank[upper]?) + 1
    let behind ← b.rank[lower]?
    let d ← (List.range' first (behind - first)).foldlM Thread.extend?
      { graph := b, chain := [upper], last := upper }
    d.finish? lower

end Building

/-- The layered graph of edges, virtual node by virtual node. -/
def build? (ranks : Array Nat) (edges : List (Option Arc)) : Option Building :=
  edges.foldlM Building.addEdge? (.start ranks)

namespace Building

/-- What is built from some ranks, the first `real` of them of real nodes, with some segments. -/
def of (real : Nat) (rank : Array Nat) (chains : List (Option (List Nat))) (segs : List Arc) :
    Building :=
  { rank
    isVirtual := (Array.range rank.size).map fun v => decide (real ≤ v)
    up := predecessors rank.size segs
    down := successors rank.size segs
    chains }

/-- Both ends of each segment are nodes. -/
def Within (size : Nat) (segs : List Arc) : Prop := ∀ s ∈ segs, s.1 < size ∧ s.2 < size

section Steps

variable {real : Nat} {rank : Array Nat} {chains : List (Option (List Nat))} {segs : List Arc}

theorem successors_push {n : Nat} (h : Within n segs) :
    successors (n + 1) segs = (successors n segs).push [] := by
  refine ext_getD [] (by simp [size_successors]) fun v hv => ?_
  rw [size_successors] at hv
  rw [getD_successors _ hv]
  by_cases hlast : v = n
  · have hnone : (segs.filter fun a => a.1 = v) = [] :=
      List.filter_eq_nil_iff.mpr fun s hs hsv => by
        have := (h s hs).1
        simp only [decide_eq_true_eq] at hsv
        omega
    subst hlast
    rw [hnone, getD_of_lt (by simp [size_successors]), Array.getElem_push,
      dif_neg (by simp [size_successors])]
    rfl
  · have hv' : v < n := by omega
    rw [← getD_successors segs hv', getD_of_lt (by simp [size_successors, hv']),
      getD_of_lt (by simp [size_successors, hv]), Array.getElem_push,
      dif_pos (by rwa [size_successors])]

theorem Within.swap {n : Nat} (h : Within n segs) : Within n (segs.map Prod.swap) := by
  intro s hs
  obtain ⟨t, ht, rfl⟩ := List.mem_map.mp hs
  exact (h t ht).symm

theorem pushVirtual_of (hreal : real ≤ rank.size) (h : Within rank.size segs) (r : Nat) :
    (of real rank chains segs).pushVirtual r = of real (rank.push r) chains segs := by
  have hmarks : ((Array.range rank.size).map fun v => decide (real ≤ v)).push true =
      (Array.range (rank.push r).size).map fun v => decide (real ≤ v) := by
    rw [Array.size_push, Array.range_succ, Array.map_append, Array.push_eq_append]
    simp [hreal]
  simp only [pushVirtual, of, hmarks, Array.size_push, predecessors, successors_push h,
    successors_push h.swap]

theorem link?_of {u l : Nat} (hu : u < rank.size) (hl : l < rank.size) :
    (of real rank chains segs).link? u l = some (of real rank chains (segs ++ [(u, l)])) := by
  have hdown := modify?_eq (a := (of real rank chains segs).down) (i := u)
    (by rwa [of, size_successors]) (· ++ [l])
  have hup := modify?_eq (a := (of real rank chains segs).up) (i := l)
    (by rwa [of, predecessors, size_successors]) (· ++ [u])
  rw [link?, bind_of_eq_some hdown, bind_of_eq_some hup]
  simp only [of, successors_concat, predecessors_concat]
  rfl

/-- Virtual nodes are numbered from the size on, and linked from `last` down to the lower end. -/
theorem finish?_of {lower : Nat} (hlower : lower < rank.size) (hreal : real ≤ rank.size)
    (h : Within rank.size segs) {chain : List Nat} {last : Nat} (hlast : last < rank.size)
    (first count : Nat) :
    ((List.range' first count).foldlM Thread.extend?
        { graph := of real rank chains segs, chain, last } >>= (·.finish? lower)) =
      some (of real (rank ++ List.range' first count)
        (chains ++ [some (chain ++ List.range' rank.size count ++ [lower])])
        (segs ++ Layered.segments (last :: List.range' rank.size count ++ [lower]))) := by
  induction count generalizing rank segs chain last first with
  | zero =>
    have hlink : (of real rank chains segs).link? last lower =
        some (of real rank chains (segs ++ [(last, lower)])) := link?_of hlast hlower
    rw [List.range'_zero, List.foldlM_nil]
    change Thread.finish? _ lower = _
    rw [Thread.finish?, bind_of_eq_some hlink]
    simp [of, Layered.segments]
  | succ count ih =>
    have hsize : (rank.push first).size = rank.size + 1 := Array.size_push _
    have hlink : (of real (rank.push first) chains segs).link? last rank.size =
        some (of real (rank.push first) chains (segs ++ [(last, rank.size)])) :=
      link?_of (by omega) (by omega)
    have hextend : Thread.extend? { graph := of real rank chains segs, chain, last } first =
        some { graph := of real (rank.push first) chains (segs ++ [(last, rank.size)])
               chain := chain ++ [rank.size], last := rank.size } := by
      rw [Thread.extend?, pushVirtual_of hreal h]
      exact bind_of_eq_some hlink _
    have hwithin : Within (rank.push first).size (segs ++ [(last, rank.size)]) := by
      intro s hs
      rcases List.mem_append.mp hs with hs | hs
      · have := h s hs
        omega
      · rw [List.mem_singleton.mp hs]
        exact ⟨by dsimp only; omega, by dsimp only; omega⟩
    have hranks : rank.push first ++ List.range' (first + 1) count =
        rank ++ List.range' first (count + 1) :=
      Array.toList_inj.mp (by simp [List.range'_succ])
    rw [List.range'_succ, List.foldlM_cons, bind_of_eq_some hextend,
      ih (by omega) (by omega) hwithin (by omega), hranks, hsize]
    simp [Layered.segments, List.range'_succ]

/-- What is built when the chains so far are those of `addChain`. -/
def after (real : Nat) (state : Array Nat × List (Option (List Nat))) : Building :=
  of real state.1 state.2.reverse ((state.2.reverse.filterMap fun c => c).flatMap Layered.segments)

/-- Between edges, all segments have ends. -/
structure Sound (real : Nat) (state : Array Nat × List (Option (List Nat))) : Prop where
  real : real ≤ state.1.size
  within : Within state.1.size
    ((state.2.reverse.filterMap fun c => c).flatMap Layered.segments)

theorem within_segments {size : Nat} {chain : List Nat} (h : ∀ v ∈ chain, v < size) :
    Within size (Layered.segments chain) := by
  intro s hs
  obtain ⟨k, hk, rfl⟩ := Layered.mem_segments hs
  exact ⟨h _ (List.getElem_mem _), h _ (List.getElem_mem _)⟩

theorem Within.append {size : Nat} {as bs : List Arc} (ha : Within size as) (hb : Within size bs) :
    Within size (as ++ bs) :=
  fun s hs => (List.mem_append.mp hs).elim (ha s) (hb s)

theorem addEdge?_after {real : Nat} {state : Array Nat × List (Option (List Nat))}
    (h : Sound real state) {edge : Option Arc}
    (hedge : ∀ a, edge = some a → a.1 < real ∧ a.2 < real) :
    (after real state).addEdge? edge = some (after real (Layered.addChain state edge)) ∧
      Sound real (Layered.addChain state edge) := by
  obtain ⟨rank, reversed⟩ := state
  cases edge with
  | none =>
    exact ⟨by simp [addEdge?, after, of, Layered.addChain], h.real,
      by simpa [Layered.addChain] using h.within⟩
  | some a =>
    obtain ⟨u, l⟩ := a
    obtain ⟨hu, hl⟩ := hedge _ rfl
    have hreal : real ≤ rank.size := h.real
    have hu : u < rank.size := Nat.lt_of_lt_of_le hu hreal
    have hl : l < rank.size := Nat.lt_of_lt_of_le hl hreal
    have hrank : ∀ {v : Nat}, v < rank.size →
        (after real (rank, reversed)).rank[v]? = some (rank.getD v 0) :=
      fun hv => getElem?_of_lt hv 0
    constructor
    · rw [addEdge?, bind_of_eq_some (hrank hu), bind_of_eq_some (hrank hl)]
      refine (finish?_of hl hreal h.within hu _ _).trans ?_
      simp [after, Layered.addChain]
    · constructor
      · change real ≤ (rank ++ List.range' _ _).size
        rw [size_appendList]
        omega
      · have hsize : (rank ++ List.range' (rank.getD u 0 + 1)
            (rank.getD l 0 - (rank.getD u 0 + 1))).size =
              rank.size + (rank.getD l 0 - (rank.getD u 0 + 1)) := by simp [size_appendList]
        simp only [Layered.addChain, List.reverse_cons, List.filterMap_append, List.flatMap_append,
          hsize]
        refine Within.append (fun s hs => ?_) ?_
        · have := h.within s hs
          dsimp only at this
          omega
        · simp only [List.filterMap_cons, List.filterMap_nil, List.flatMap_singleton]
          refine within_segments fun v hv => ?_
          simp only [List.cons_append, List.mem_cons, List.mem_append, List.mem_range'_1,
            List.not_mem_nil, or_false] at hv
          omega

end Steps

/-- The layered graph that was built; the first `real` nodes are real. -/
def layered (b : Building) (real : Nat) : Layered :=
  { real, rank := b.rank, chains := b.chains, up := b.up, down := b.down }

/-- What is built of a layered graph. -/
def ofLayered (g : Layered) : Building :=
  { rank := g.rank
    isVirtual := (Array.range g.size).map g.isVirtual
    up := g.up
    down := g.down
    chains := g.chains }

theorem layered_ofLayered (g : Layered) : (ofLayered g).layered g.real = g := rfl

end Building

/-- Building gets through, with the layered graph of the edges. -/
theorem build?_eq {ranks : Array Nat} {edges : List (Option Arc)}
    (h : ∀ a, some a ∈ edges → a.1 < ranks.size ∧ a.2 < ranks.size) :
    build? ranks edges = some (.ofLayered (.ofEdges ranks edges)) := by
  have hstart : Building.start ranks = Building.after ranks.size (ranks, []) := by
    have hmarks : Array.replicate ranks.size false =
        (Array.range ranks.size).map fun v => decide (ranks.size ≤ v) := by
      refine Array.ext (by simp) fun v hv hv' => ?_
      simp at hv
      simp [hv]
    simp [Building.start, Building.after, Building.of, hmarks, predecessors, successors]
  rw [build?, hstart]
  refine (foldlM_eq_some_of (Building.after ranks.size) (P := Building.Sound ranks.size)
    (g := Layered.addChain) ?_ ⟨Nat.le_refl _, ?_⟩).1
  · intro state hstate edge hedge
    exact Building.addEdge?_after hstate fun a ha => h a (ha ▸ hedge)
  · exact fun _ hs => absurd hs List.not_mem_nil

/-! ## Walking with a stack -/

namespace Layered

/-- The nodes seen so far, in their layers. -/
structure Walking where
  seen : Array Bool
  layers : Array (List Nat)

/-- Puts a node on a stack, unless it was seen. -/
def push? (seen : Array Bool) (stack : List Nat) (w : Nat) : Option (List Nat) := do
  if ← seen[w]? then return stack
  return w :: stack

/-- Passes a node that was not seen yet. The nodes below it come on top of the stack, the first of
them last. -/
def enter? (g : Layered) (s : Walking) (v : Nat) (stack : List Nat) :
    Option (Walking × List Nat) := do
  let seen ← write? s.seen v true
  let layers ← modify? s.layers (← g.rank[v]?) (· ++ [v])
  let stack ← (← g.down[v]?).reverse.foldlM (push? seen) stack
  return ({ seen, layers }, stack)

theorem seen_enter? {g : Layered} {s t : Walking} {v : Nat} {stack rest : List Nat}
    (h : g.enter? s v stack = some (t, rest)) : t.seen = s.seen.setIfInBounds v true := by
  simp only [enter?, write?, Option.bind_eq_bind, Option.bind_eq_some_iff,
    Option.ite_none_right_eq_some, Option.pure_def, Option.some.injEq, Prod.mk.injEq] at h
  obtain ⟨_, ⟨-, rfl⟩, _, -, _, -, _, -, _, -, rfl, -⟩ := h
  rfl

/-- One node fewer is left to see. -/
theorem countP_seen_lt {seen : Array Bool} {v : Nat} (h : seen[v]? = some false) :
    (seen.setIfInBounds v true).countP (!·) < seen.countP (!·) := by
  obtain ⟨hv, hfalse⟩ := Array.getElem?_eq_some_iff.mp h
  have hcount := Array.boole_getElem_le_countP (p := (!·)) hv
  rw [hfalse] at hcount
  rw [Array.setIfInBounds_def, dif_pos hv, Array.countP_set, hfalse]
  simp only [Bool.not_false, if_true, Bool.not_true, Bool.false_eq_true, if_false] at hcount ⊢
  omega

/-- Visits the nodes on the stack, until it is empty. -/
def walk? (g : Layered) (s : Walking) : List Nat → Option Walking
  | [] => some s
  | v :: stack =>
    match _hseen : s.seen[v]? with
    | none => none
    | some true => walk? g s stack
    | some false =>
      match _henter : g.enter? s v stack with
      | none => none
      | some (t, next) => walk? g t next
termination_by stack => (s.seen.countP (!·), stack.length)
decreasing_by
  · exact Prod.Lex.right _ (Nat.lt_succ_self _)
  · rw [seen_enter? _henter]
    exact Prod.Lex.left _ _ (countP_seen_lt _hseen)

/-- The nodes in the order in which they start walks. -/
def starts? (g : Layered) : Option (List Nat) := do
  let ranked ← (List.range g.size).mapM fun v => do return (v, ← g.rank[v]?)
  return (ranked.mergeSort fun a b => a.2 ≤ b.2).map Prod.fst

/-- The layers of the first arrangement. -/
def firstOrder? (g : Layered) : Option Layers := do
  let s ← (← g.starts?).foldlM (fun s v => g.walk? s [v])
    { seen := Array.replicate g.size false, layers := Array.replicate g.depth [] }
  return s.layers.toList

/-! ### A visit takes its node off the stack -/

/-- The layers of the nodes on a trail, the last one first. -/
def layersOf (g : Layered) (trail : List Nat) : Array (List Nat) :=
  trail.foldl (fun layers v => layers.modify (g.rankOf v) (v :: ·)) (Array.replicate g.depth [])

/-- Where a walk stands after visits. -/
def Walking.of (g : Layered) (s : Visit) : Walking := ⟨s.seen, g.layersOf s.trail⟩

section Walk

variable {g : Layered} {s : Visit} {v : Nat}

theorem size_layersOf (g : Layered) (trail : List Nat) : (g.layersOf trail).size = g.depth := by
  rw [layersOf, size_modifies g.rankOf (fun v => v), Array.size_replicate]

/-- The last node of all comes to the end of its layer. -/
theorem layersOf_cons (g : Layered) (v : Nat) (trail : List Nat) :
    g.layersOf (v :: trail) = (g.layersOf trail).modify (g.rankOf v) (· ++ [v]) := by
  refine ext_getD [] (by simp [size_layersOf]) fun r hr => ?_
  have hlayer : ∀ vs : List Nat, (g.layersOf vs).getD r [] =
      (vs.filter fun w => g.rankOf w = r).reverse := fun vs => by
    rw [size_layersOf] at hr
    rw [layersOf, getD_modifies g.rankOf (fun v => v) _ _ (by rwa [Array.size_replicate]),
      getD_replicate, List.append_nil, List.map_id']
  rw [getD_modify_append _ _ _ (by rwa [size_layersOf] at hr ⊢), hlayer, hlayer]
  by_cases hv : g.rankOf v = r <;> simp [hv]

theorem visit_seen (hv : s.seen.getD v true = true) (levels : Nat) : g.visit levels s v = s := by
  cases levels with
  | zero => rfl
  | succ levels => rw [visit, if_pos hv]

theorem visit_fresh (hv : s.seen.getD v true = false) (levels : Nat) :
    g.visit (levels + 1) s v = (g.below v).foldl (g.visit levels)
      { seen := s.seen.setIfInBounds v true, trail := v :: s.trail } := by
  rw [visit, if_neg (by simp [hv])]

theorem foldlM_push? {seen : Array Bool} {ws : List Nat} (h : ∀ w ∈ ws, w < seen.size)
    (stack : List Nat) : ws.reverse.foldlM (push? seen) stack =
      some (ws.filter (fun w => !seen.getD w true) ++ stack) := by
  have hpush := (foldlM_eq_some (P := fun _ : List Nat => True) (f := push? seen)
    (g := fun stack w => if seen.getD w true then stack else w :: stack) (l := ws.reverse)
    (fun stack _ w hw => by
      rw [push?, bind_of_eq_some (getElem?_of_lt (h w (List.mem_reverse.mp hw)) true)]
      cases seen.getD w true <;> exact ⟨rfl, trivial⟩)
    (b := stack) trivial).1
  rw [hpush, List.foldl_reverse]
  congr 1
  clear hpush h
  induction ws with
  | nil => rfl
  | cons w rest ih =>
    rw [List.foldr_cons, ih]
    cases hw : seen.getD w true with
    | true => rw [List.filter_cons_of_neg (by simp [hw]), if_pos rfl]
    | false =>
      rw [List.filter_cons_of_pos (by simp [hw]), if_neg Bool.false_ne_true, List.cons_append]

theorem enter?_eq (hg : g.Joined) (hs : g.Sized) (h : s.Marked g.size)
    (hv : s.seen.getD v true = false) (stack : List Nat) :
    g.enter? (.of g s) v stack =
      some (.of g { seen := s.seen.setIfInBounds v true, trail := v :: s.trail },
        (g.below v).filter (fun w => !(s.seen.setIfInBounds v true).getD w true) ++ stack) := by
  have hsize : v < g.size := h.size ▸ lt_size_of_getD_false hv
  have hseen : write? s.seen v true = some (s.seen.setIfInBounds v true) :=
    write?_eq (h.size.symm ▸ hsize) true
  have hlayers := modify?_eq (a := g.layersOf s.trail) (i := g.rankOf v)
    (by rw [size_layersOf]; exact rankOf_lt_depth hsize) (· ++ [v])
  have hbelow : ∀ w ∈ g.below v, w < (s.seen.setIfInBounds v true).size := fun w hw => by
    rw [Array.size_setIfInBounds, h.size]
    exact (mem_below hg hsize hw).1
  have hstack := foldlM_push? hbelow stack
  rw [enter?, Walking.of, bind_of_eq_some hseen, bind_of_eq_some (getElem?_rank hsize),
    bind_of_eq_some hlayers, bind_of_eq_some (hs.getElem?_down hsize), bind_of_eq_some hstack,
    Walking.of, layersOf_cons]
  rfl

theorem walk?_seen {w : Walking} (h : w.seen[v]? = some true) (stack : List Nat) :
    g.walk? w (v :: stack) = g.walk? w stack := by
  rw [walk?]
  split <;> simp_all

theorem walk?_fresh {w t : Walking} {stack next : List Nat} (h : w.seen[v]? = some false)
    (henter : g.enter? w v stack = some (t, next)) :
    g.walk? w (v :: stack) = g.walk? t next := by
  rw [walk?]
  split
  · simp_all
  · simp_all
  · split <;> simp_all

/-- A node on top of the stack is visited, and then it is the turn of the next one. -/
theorem walk?_cons (hg : g.Joined) (hs : g.Sized) {levels : Nat} (h : s.Marked g.size)
    (hv : v < g.size) (hlevels : g.depth ≤ g.rankOf v + levels) (stack : List Nat) :
    g.walk? (.of g s) (v :: stack) = g.walk? (.of g (g.visit levels s v)) stack := by
  induction levels generalizing s v stack with
  | zero =>
    have := rankOf_lt_depth hv
    omega
  | succ levels ih =>
    have hread : (Walking.of g s).seen[v]? = some (s.seen.getD v true) :=
      getElem?_of_lt (h.size.symm ▸ hv) true
    cases hfresh : s.seen.getD v true with
    | true =>
      rw [hfresh] at hread
      rw [walk?_seen hread, visit_seen hfresh]
    | false =>
      rw [hfresh] at hread
      rw [walk?_fresh hread (enter?_eq hg hs h hfresh stack), visit_fresh hfresh]
      -- Nodes that were seen when `v` was passed are not on the stack, and visiting them is idle.
      have hbelow : ∀ (ws : List Nat) (t : Visit), (∀ w ∈ ws, w ∈ g.below v) →
          t.Marked g.size → (∀ x < g.size,
            (s.seen.setIfInBounds v true).getD x true = true → t.seen.getD x true = true) →
          g.walk? (.of g t) (ws.filter (fun w =>
            !(s.seen.setIfInBounds v true).getD w true) ++ stack) =
              g.walk? (.of g (ws.foldl (g.visit levels) t)) stack := by
        intro ws
        induction ws with
        | nil => exact fun t _ _ _ => rfl
        | cons w ws ihws =>
          intro t hws ht hkept
          obtain ⟨hw, hws⟩ := List.forall_mem_cons.mp hws
          obtain ⟨hsize, hrank⟩ := mem_below hg hv hw
          rw [List.foldl_cons]
          cases hpassed : (s.seen.setIfInBounds v true).getD w true with
          | true =>
            rw [List.filter_cons_of_neg (by simp [hpassed]), visit_seen (hkept w hsize hpassed)]
            exact ihws t hws ht hkept
          | false =>
            rw [List.filter_cons_of_pos (by simp [hpassed]), List.cons_append,
              ih ht hsize (by omega)]
            have hnext : (g.visit levels t w).Marked g.size := visit_marked ht w
            refine ihws _ hws hnext fun x hx hseen => ?_
            rw [hnext.seen x hx]
            exact trail_subset_visit w ((ht.seen x hx).mp (hkept x hx hseen))
      exact hbelow (g.below v) _ (fun w hw => hw) (h.push hfresh) fun x _ hx => hx

theorem starts?_eq (g : Layered) : g.starts? = some g.byRank := by
  have hranked : ((List.range g.size).mapM fun v => do return (v, ← g.rank[v]?)) =
      some ((List.range g.size).map fun v => (v, g.rankOf v)) := by
    refine mapM_eq_some fun v hv => ?_
    rw [getElem?_rank (List.mem_range.mp hv)]
    rfl
  have hsorted : (g.byRank).map (fun v => (v, g.rankOf v)) =
      ((List.range g.size).map fun v => (v, g.rankOf v)).mergeSort fun a b => a.2 ≤ b.2 :=
    List.map_mergeSort fun a _ b _ => rfl
  rw [starts?, bind_of_eq_some hranked, ← hsorted, List.map_map]
  exact congrArg some (List.map_id _)

/-- The walk with a stack makes the layers of the walk that visits node after node. -/
theorem firstOrder?_eq (hg : g.Joined) (hs : g.Sized) : g.firstOrder? = some g.arrange := by
  have hwalk := (foldlM_eq_some_of (Walking.of g) (P := fun s : Visit => s.Marked g.size)
    (f := fun s v => g.walk? s [v]) (g := g.visit g.depth) (l := g.byRank)
    (fun s h v hv => by
      have hv : v < g.size := List.mem_range.mp ((byRank_perm g).mem_iff.mp hv)
      refine ⟨?_, visit_marked h v⟩
      rw [walk?_cons hg hs h hv (Nat.le_add_left _ _)]
      exact walk?.eq_1 g _)
    (marked_start g.size)).1
  rw [firstOrder?, bind_of_eq_some (starts?_eq g)]
  exact bind_of_eq_some hwalk _

end Walk
end Layered
end Tiered.Layering
