import Tiered.Proofs.Guarded.Access
import Tiered.Proofs.Layering.Peeling

/-!
# Nothing in peeling can fail

* `start?`: both neighbours and counters are filled arc by arc; the counters are the numbers of
  neighbours (`start?_eq`);
* `run?`: peeling with every access in range and no node taken off where none remains; a round that
  brings the end no nearer, or finds no node to pick, would be a failure as well;
* `feedback?_eq`: for arcs between nodes that are there it gets through, with the arcs that
  `feedback` turns around.
-/

namespace Tiered.Layering

/-! ## The start -/

theorem ofArcs_eq (n : Nat) (arcs : List Arc) : Network.ofArcs n arcs =
    { size := n, outgoing := successors n (proper arcs)
      incoming := predecessors n (proper arcs) } := rfl

theorem map_length_modify (lists : Array (List Nat)) (i w : Nat) :
    (lists.modify i (· ++ [w])).map (fun ws => (ws.length : Int)) =
      (lists.map fun ws => (ws.length : Int)).modify i (· + 1) := by
  refine Array.ext (by simp) fun v hv hv' => ?_
  simp only [Array.getElem_map, Array.getElem_modify]
  split
  · simp
  · rfl

namespace Peeling

/-- Enters an arc at both its ends, unless it is a loop. -/
def enter? (s : Network × Peeling) (a : Arc) : Option (Network × Peeling) :=
  if a.1 = a.2 then some s
  else do
    let outgoing ← modify? s.1.outgoing a.1 (· ++ [a.2])
    let incoming ← modify? s.1.incoming a.2 (· ++ [a.1])
    let outDegree ← modify? s.2.outDegree a.1 (· + 1)
    let inDegree ← modify? s.2.inDegree a.2 (· + 1)
    return ({ s.1 with outgoing, incoming }, { s.2 with outDegree, inDegree })

/-- The arcs of `n` nodes by their ends, and peeling before the first node is placed. -/
def start? (n : Nat) (arcs : List Arc) : Option (Network × Peeling) :=
  arcs.foldlM enter?
    ({ size := n, outgoing := Array.replicate n [], incoming := Array.replicate n [] },
      { placed := Array.replicate n false, remaining := n, outDegree := Array.replicate n 0
        inDegree := Array.replicate n 0 })

def uncount? (degrees : Array Int) (vs : List Nat) : Option (Array Int) :=
  vs.foldlM (fun degrees v => modify? degrees v (· - 1)) degrees

def place? (g : Network) (p : Peeling) (v : Nat) : Option Peeling := do
  let placed ← write? p.placed v true
  let remaining ← minus? p.remaining 1
  let inDegree ← uncount? p.inDegree (← g.outgoing[v]?)
  let outDegree ← uncount? p.outDegree (← g.incoming[v]?)
  return { p with placed, remaining, inDegree, outDegree }

def toLeft? (g : Network) (p : Peeling) (v : Nat) : Option Peeling := do
  return { ← place? g p v with left := v :: p.left }

def toRight? (g : Network) (p : Peeling) (v : Nat) : Option Peeling := do
  return { ← place? g p v with right := v :: p.right }

def isSink? (p : Peeling) (v : Nat) : Option Bool := do
  if ← p.placed[v]? then return false
  return (← p.outDegree[v]?) == 0

def isSource? (p : Peeling) (v : Nat) : Option Bool := do
  if ← p.placed[v]? then return false
  return (← p.inDegree[v]?) == 0

def peelSinks? (g : Network) (p : Peeling) : Option Peeling :=
  (List.range g.size).foldlM (fun p v => do if ← p.isSink? v then p.toRight? g v else return p) p

def peelSources? (g : Network) (p : Peeling) : Option Peeling :=
  (List.range g.size).foldlM (fun p v => do if ← p.isSource? v then p.toLeft? g v else return p) p

def surplus? (p : Peeling) (v : Nat) : Option Int := do
  return (← p.outDegree[v]?) - (← p.inDegree[v]?)

/-- Looks at one more node for the pick. -/
def better? (p : Peeling) (best : Option Nat) (v : Nat) : Option (Option Nat) := do
  if ← p.placed[v]? then return best
  match best with
  | none => return some v
  | some b => return if (← p.surplus? b) < (← p.surplus? v) then some v else best

def largest? (g : Network) (p : Peeling) : Option (Option Nat) :=
  (List.range g.size).foldlM p.better? none

/-- Peels until all nodes are placed, if every round brings that nearer. -/
def run? (g : Network) (p : Peeling) : Option Peeling := do
  let q ← peelSources? g (← peelSinks? g p)
  if _h : q.remaining < p.remaining then run? g q
  else if 0 < q.remaining then
    match ← largest? g q with
    | some v =>
      let next ← q.toLeft? g v
      if _h : next.remaining < p.remaining then run? g next else none
    | none => none
  else return q
termination_by p.remaining

/-! ## Every step gets through -/

section Steps

variable {n : Nat} {arcs : List Arc} {p : Peeling} {v : Nat}

theorem enter?_eq (done : List Arc) {a : Arc} (ha : a.1 < n ∧ a.2 < n) :
    enter? (.ofArcs n done, .start (.ofArcs n done)) a =
      some (.ofArcs n (done ++ [a]), .start (.ofArcs n (done ++ [a]))) := by
  unfold enter?
  by_cases hloop : a.1 = a.2
  · have hproper : proper (done ++ [a]) = proper done := by simp [proper, hloop]
    have hsame : Network.ofArcs n (done ++ [a]) = Network.ofArcs n done := by
      rw [ofArcs_eq, ofArcs_eq, hproper]
    rw [if_pos hloop, hsame]
  · have hproper : proper (done ++ [a]) = proper done ++ [a] := by simp [proper, hloop]
    rw [if_neg hloop, modify?_eq (by rw [size_outgoing]; exact ha.1),
      modify?_eq (by rw [size_incoming]; exact ha.2),
      modify?_eq (by rw [start, Array.size_map, size_outgoing]; exact ha.1),
      modify?_eq (by rw [start, Array.size_map, size_incoming]; exact ha.2)]
    simp only [Option.bind_eq_bind, Option.bind_some, start, ofArcs_eq, hproper,
      successors_concat, predecessors_concat, map_length_modify]
    rfl

/-- The counters are filled along with the lists, and are their lengths. -/
theorem start?_eq (hb : ∀ a ∈ arcs, a.1 < n ∧ a.2 < n) :
    start? n arcs = some (.ofArcs n arcs, .start (.ofArcs n arcs)) := by
  obtain ⟨s, hs, rfl⟩ := exists_foldlM_eq
    (P := fun (done : List Arc) (s : Network × Peeling) =>
      s = (.ofArcs n done, .start (.ofArcs n done)))
    (fun done _ hs a ha => ⟨_, hs ▸ enter?_eq done (hb a ha), rfl⟩) rfl
  rw [← hs, start?, start]
  simp [Network.ofArcs, successors, predecessors]

theorem uncount?_eq {degrees : Array Int} {vs : List Nat} (h : ∀ v ∈ vs, v < degrees.size) :
    uncount? degrees vs = some (uncount degrees vs) := by
  refine (foldlM_eq_some (P := fun ds : Array Int => ds.size = degrees.size) ?_ rfl).1
  intro ds hsize v hv
  exact ⟨modify?_eq (hsize ▸ h v hv) _, Array.size_modify.trans hsize⟩

theorem getElem?_placed (h : p.Valid n) (hv : v < n) : p.placed[v]? = some (p.isPlaced v) :=
  getElem?_of_lt (h.size.symm ▸ hv) _

theorem isSink?_eq (h : p.Counted n arcs) (hv : v < n) : p.isSink? v = some (p.isSink v) := by
  rw [isSink?, getElem?_placed h.toValid hv, getElem?_of_lt (h.sizes.1.symm ▸ hv) 0, isSink]
  cases p.isPlaced v <;> rfl

theorem isSource?_eq (h : p.Counted n arcs) (hv : v < n) :
    p.isSource? v = some (p.isSource v) := by
  rw [isSource?, getElem?_placed h.toValid hv, getElem?_of_lt (h.sizes.2.symm ▸ hv) 0, isSource]
  cases p.isPlaced v <;> rfl

theorem surplus?_eq (h : p.Counted n arcs) (hv : v < n) : p.surplus? v = some (p.surplus v) := by
  rw [surplus?, getElem?_of_lt (h.sizes.1.symm ▸ hv) 0, getElem?_of_lt (h.sizes.2.symm ▸ hv) 0]
  rfl

/-- As long as a node is left, at least one remains. -/
theorem Valid.remaining_pos (h : p.Valid n) (hv : p.isPlaced v = false) : 0 < p.remaining := by
  have hnext := (h.toLeft (g := .ofArcs n []) hv).remaining
  have hnow := h.remaining
  have hgrown : (p.toLeft (.ofArcs n []) v).sequence.length = p.sequence.length + 1 := by
    rw [sequence_toLeft, sequence]
    simp only [List.length_append, List.length_cons, Nat.add_assoc]
  omega

variable (hb : ∀ a ∈ arcs, a.1 < n ∧ a.2 < n)

include hb

theorem place?_eq (h : p.Counted n arcs) (hv : p.isPlaced v = false) :
    place? (.ofArcs n arcs) p v = some (p.place (.ofArcs n arcs) v) := by
  have hvn : v < n := h.lt hv
  have hout : ∀ w ∈ (Network.ofArcs n arcs).outgoing.getD v [], w < p.inDegree.size := by
    intro w hw
    rw [getD_outgoing arcs hvn] at hw
    obtain ⟨a, ha, rfl⟩ := List.mem_map.mp hw
    rw [h.sizes.2]
    exact (hb a (mem_proper.mp (List.mem_filter.mp ha).1).1).2
  have hin : ∀ u ∈ (Network.ofArcs n arcs).incoming.getD v [], u < p.outDegree.size := by
    intro u hu
    rw [getD_incoming arcs hvn] at hu
    obtain ⟨a, ha, rfl⟩ := List.mem_map.mp hu
    rw [h.sizes.1]
    exact (hb a (mem_proper.mp (List.mem_filter.mp ha).1).1).1
  rw [place?, write?_eq (h.size.symm ▸ hvn), minus?_eq (h.remaining_pos hv),
    getElem?_of_lt (by rw [size_outgoing]; exact hvn) [],
    getElem?_of_lt (by rw [size_incoming]; exact hvn) []]
  simp only [Option.bind_eq_bind, Option.bind_some, uncount?_eq hout, uncount?_eq hin]
  rfl

theorem toLeft?_eq (h : p.Counted n arcs) (hv : p.isPlaced v = false) :
    p.toLeft? (.ofArcs n arcs) v = some (p.toLeft (.ofArcs n arcs) v) := by
  rw [toLeft?, place?_eq hb h hv]
  rfl

theorem toRight?_eq (h : p.Counted n arcs) (hv : p.isPlaced v = false) :
    p.toRight? (.ofArcs n arcs) v = some (p.toRight (.ofArcs n arcs) v) := by
  rw [toRight?, place?_eq hb h hv]
  rfl

theorem peelSinks?_eq (h : p.Counted n arcs) :
    peelSinks? (.ofArcs n arcs) p = some (peelSinks (.ofArcs n arcs) p) := by
  refine (foldlM_eq_some (P := fun q : Peeling => q.Counted n arcs) ?_ h).1
  intro q hq v hv
  rw [isSink?_eq hq (List.mem_range.mp hv)]
  cases hsink : q.isSink v with
  | false => exact ⟨rfl, hq⟩
  | true =>
    have hfree := isPlaced_of_isSink hsink
    exact ⟨toRight?_eq hb hq hfree, hq.toRight hfree⟩

theorem peelSources?_eq (h : p.Counted n arcs) :
    peelSources? (.ofArcs n arcs) p = some (peelSources (.ofArcs n arcs) p) := by
  refine (foldlM_eq_some (P := fun q : Peeling => q.Counted n arcs) ?_ h).1
  intro q hq v hv
  rw [isSource?_eq hq (List.mem_range.mp hv)]
  cases hsource : q.isSource v with
  | false => exact ⟨rfl, hq⟩
  | true =>
    have hfree := isPlaced_of_isSource hsource
    exact ⟨toLeft?_eq hb hq hfree, hq.toLeft hfree⟩

omit hb in
/-- Looking at all nodes for the largest surplus is looking at those that are left. -/
theorem largest?_eq (h : p.Counted n arcs) :
    largest? (.ofArcs n arcs) p = some (pick? (.ofArcs n arcs) p) := by
  rw [pick?, List.foldl_filter]
  refine (foldlM_eq_some (P := fun best : Option Nat => ∀ b, best = some b → b < n) ?_
    (by simp)).1
  intro best hbest v hv
  have hvn : v < n := List.mem_range.mp hv
  unfold better?
  rw [getElem?_placed h.toValid hvn]
  cases hplaced : p.isPlaced v with
  | true => exact ⟨rfl, hbest⟩
  | false =>
    cases best with
    | none =>
      refine ⟨rfl, fun b hb => ?_⟩
      cases hb
      exact hvn
    | some b =>
      have hbn : b < n := hbest b rfl
      simp only [Option.bind_eq_bind, Option.bind_some, surplus?_eq h hbn, surplus?_eq h hvn]
      refine ⟨rfl, fun c hc => ?_⟩
      simp only [Bool.not_false, if_true] at hc
      split at hc
      · cases hc
        exact hvn
      · cases hc
        exact hbn

theorem run?_eq (h : p.Counted n arcs) :
    run? (.ofArcs n arcs) p = some (run (.ofArcs n arcs) p) := by
  have hround : ∀ {q : Peeling} {rest : Peeling → Option Peeling}, q.Counted n arcs →
      (peelSinks? (.ofArcs n arcs) q >>= fun r => peelSources? (.ofArcs n arcs) r >>= rest) =
        rest (peelSources (.ofArcs n arcs) (peelSinks (.ofArcs n arcs) q)) := by
    intro q rest hq
    rw [peelSinks?_eq hb hq, Option.bind_eq_bind, Option.bind_some, peelSources?_eq hb hq.peelSinks,
      Option.bind_some]
  fun_induction run (.ofArcs n arcs) p with
  | case1 p q hless ih =>
    rw [run?, hround h]
    exact (dif_pos hless).trans (ih h.peelSinks.peelSources)
  | case2 p q hstuck hleft v hv ih =>
    have hq : q.Counted n arcs := h.peelSinks.peelSources
    have hfree := (pick?_eq_some hv).2.1
    have hless : (q.toLeft (.ofArcs n arcs) v).remaining < p.remaining := by
      have hsources : q.remaining ≤ (peelSinks (.ofArcs n arcs) p).remaining :=
        remaining_peelSources_le _ _
      have hsinks := remaining_peelSinks_le (.ofArcs n arcs) p
      change q.remaining - 1 < p.remaining
      omega
    rw [run?, hround h]
    refine (dif_neg hstuck).trans ((if_pos hleft).trans ?_)
    change (largest? (.ofArcs n arcs) q >>= _) = _
    rw [largest?_eq hq, hv]
    change (q.toLeft? (.ofArcs n arcs) v >>= _) = _
    rw [toLeft?_eq hb hq hfree]
    exact (dif_pos hless).trans (ih (hq.toLeft hfree))
  | case3 p q hstuck hleft hnone =>
    obtain ⟨u, hu, hfree⟩ := h.peelSinks.peelSources.exists_not_placed hleft
    obtain ⟨w, hw⟩ := pick?_of_not_placed (g := .ofArcs n arcs) hu hfree
    rw [hnone] at hw
    cases hw
  | case4 p q hstuck hdone =>
    rw [run?, hround h]
    exact (dif_neg hstuck).trans (if_neg hdone)

end Steps
end Peeling

/-- For each arc whether it has to be turned around, if every access on the way is in range. -/
def feedback? (n : Nat) (arcs : List Arc) : Option (List Bool) := do
  let (g, p) ← Peeling.start? n arcs
  let p ← Peeling.run? g p
  let places ← note? (Array.replicate n 0) p.sequence
  arcs.mapM fun (u, v) =>
    if u = v then some false else do return decide ((← places[v]?) < (← places[u]?))

/-- **Nothing in peeling can fail**, whatever arcs there are between the nodes. -/
theorem feedback?_eq {n : Nat} {arcs : List Arc} (hb : ∀ a ∈ arcs, a.1 < n ∧ a.2 < n) :
    feedback? n arcs = some (feedback n arcs) := by
  have hseq : ∀ v ∈ sequence n arcs, v < n := fun v hv =>
    List.mem_range.mp ((sequence_perm n arcs).mem_iff.mp hv)
  rw [feedback?, Peeling.start?_eq hb]
  change (Peeling.run? _ _ >>= _) = _
  rw [Peeling.run?_eq hb (Peeling.counted_start hb)]
  change (note? (Array.replicate n 0) (sequence n arcs) >>= _) = _
  rw [note?_eq fun v hv => by simpa using hseq v hv]
  refine mapM_eq_some fun a ha => ?_
  obtain ⟨u, v⟩ := a
  obtain ⟨hu, hv⟩ := hb _ ha
  have hsize : (note (Array.replicate n 0) (sequence n arcs)).size = n := by
    change (writes _ _).size = n
    rw [size_writes, Array.size_replicate]
  by_cases hloop : u = v
  · simp [hloop]
  · dsimp only
    rw [if_neg hloop, getElem?_of_lt (hsize.symm ▸ hv) 0, getElem?_of_lt (hsize.symm ▸ hu) 0,
      decide_eq_true hloop, Bool.true_and]
    rfl

end Tiered.Layering
