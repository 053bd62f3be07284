import Tiered.Proofs.Layout.Defined.Clipping
import Tiered.Proofs.Layout.Routes

/-!
# When routes are defined

* `isDefined_routeEdge_iff`: arrowheads and labels are defined where their route is;
* `Joins`: the points that each end of a route is clipped towards, which move with the route
  (`Joins.shift`);
* `isDefined_route_iff`: a route is defined unless one of its ends is clipped lengthwise.
-/

namespace Tiered

open Checked

variable {K : Type} [Field K] [LinearOrder K] [FloorRing K] [PlaneFunctions K]

structure TextMetrics.IsDefined (m : TextMetrics (Checked K)) : Prop where
  charWidth : m.charWidth.IsDefined
  lineHeight : m.lineHeight.IsDefined
  paddingX : m.paddingX.IsDefined
  paddingY : m.paddingY.IsDefined

structure Settings.IsDefined (s : Settings (Checked K)) : Prop where
  nodeSep : s.nodeSep.IsDefined
  rankSep : s.rankSep.IsDefined
  edgeSep : s.edgeSep.IsDefined
  margin : s.margin.IsDefined
  text : s.text.IsDefined

/-- A node has a place, and two lengths as its size. -/
structure PlacedNode.IsDefined (n : PlacedNode (Checked K)) : Prop where
  rect : n.rect.IsDefined
  width : Scalar.isLength n.rect.width = true
  height : Scalar.isLength n.rect.height = true

/-- All numbers of an edge are defined. -/
structure RoutedEdge.IsDefined (e : RoutedEdge (Checked K)) : Prop where
  points : ∀ p ∈ e.points, p.IsDefined
  position : e.arrowhead.position.IsDefined
  angle : e.arrowhead.angle.IsDefined
  label : ∀ label ∈ e.label, label.rect.IsDefined

section Moved

variable {dx dy : Checked K} (hdx : dx.IsDefined) (hdy : dy.IsDefined)

include hdx hdy

theorem PlacedNode.IsDefined.shift {n : PlacedNode (Checked K)} (h : n.IsDefined) :
    (n.shift dx dy).IsDefined where
  rect := (Rect.isDefined_shift hdx hdy).mpr h.rect
  width := h.width
  height := h.height

theorem RoutedEdge.isDefined_shift {e : RoutedEdge (Checked K)} :
    (e.shift dx dy).IsDefined ↔ e.IsDefined := by
  have hpoint := fun p => Point.isDefined_shift (p := p) hdx hdy
  constructor
  · rintro ⟨hpoints, hposition, hangle, hlabel⟩
    refine ⟨?_, (hpoint _).mp hposition, hangle, ?_⟩
    · intro p hp
      exact (hpoint p).mp (hpoints _ (List.mem_map_of_mem hp))
    · intro label hmem
      exact (Rect.isDefined_shift hdx hdy).mp (hlabel _ (Option.mem_map_of_mem _ hmem))
  · rintro ⟨hpoints, hposition, hangle, hlabel⟩
    refine ⟨?_, (hpoint _).mpr hposition, hangle, ?_⟩
    · intro q hq
      obtain ⟨p, hp, rfl⟩ := List.mem_map.mp hq
      exact (hpoint p).mpr (hpoints p hp)
    · intro moved hmoved
      obtain ⟨label, hmem, rfl⟩ := Option.mem_map.mp hmoved
      exact (Rect.isDefined_shift hdx hdy).mpr (hlabel label hmem)

end Moved

namespace Layout

open Layering (Arc Layered)

/-! ## Lines -/

section Lines

theorem isDefined_onScreen (d : Direction) {along across : Checked K} (halong : along.IsDefined)
    (hacross : across.IsDefined) : (onScreen d along across).IsDefined := by
  cases d <;> simp [onScreen, Point.IsDefined, halong, hacross]

theorem isDefined_spread {edgeSep : Checked K} (h : edgeSep.IsDefined)
    (all earlier arcs : List (Option Arc)) :
    ∀ bend ∈ spread edgeSep all earlier arcs, bend.IsDefined := by
  induction arcs generalizing earlier with
  | nil => exact nofun
  | cons arc rest ih =>
    cases arc with
    | none => exact List.forall_mem_cons.mpr ⟨isDefined_ofNat 0, ih _⟩
    | some a =>
      refine List.forall_mem_cons.mpr ⟨?_, ih _⟩
      simp [h]

theorem isDefined_selfLoop {r : Rect (Checked K)} (h : r.IsDefined) (d : Direction) (nth : Nat) :
    ∀ p ∈ selfLoop r d nth, p.IsDefined := by
  have hreach : (loopReach * ((nth + 1 : Nat) : Checked K)).IsDefined :=
    isDefined_mul.mpr ⟨isDefined_ofNat 20, isDefined_natCast _⟩
  unfold selfLoop
  split <;> simp [Point.IsDefined, h.center.1, h.center.2, h.right, h.bottom, h.width, h.height,
    hreach]

/-! ## Labels and arrowheads -/

theorem isDefined_pointAlong {last : Point (Checked K)} (hlast : last.IsDefined)
    {remaining : Checked K} (hremaining : remaining.IsDefined) {points : List (Point (Checked K))}
    (h : ∀ p ∈ points, p.IsDefined) : (pointAlong last remaining points).IsDefined := by
  induction points generalizing remaining with
  | nil => exact hlast
  | cons p rest ih =>
    obtain ⟨hp, hrest⟩ := List.forall_mem_cons.mp h
    cases rest with
    | nil => exact hlast
    | cons q rest =>
      have hq := hrest q List.mem_cons_self
      have hlength := hp.distance hq
      simp only [pointAlong]
      split
      · rename_i hcut
        have hshare := hremaining.div_of_pos hcut.2
        simp [Point.IsDefined, hp.1, hp.2, hq.1, hq.2, hshare]
      · exact ih (isDefined_sub.mpr ⟨hremaining, hlength⟩) hrest

theorem isDefined_segmentLengths {points : List (Point (Checked K))}
    (h : ∀ p ∈ points, p.IsDefined) : ∀ length ∈ segmentLengths points, length.IsDefined := by
  induction points with
  | nil => exact nofun
  | cons p rest ih =>
    obtain ⟨hp, hrest⟩ := List.forall_mem_cons.mp h
    cases rest with
    | nil => exact nofun
    | cons q rest =>
      exact List.forall_mem_cons.mpr ⟨hp.distance (hrest q List.mem_cons_self), ih hrest⟩

theorem isDefined_midpoint {points : List (Point (Checked K))} (h : ∀ p ∈ points, p.IsDefined) :
    (midpoint points).IsDefined := by
  have hget : ∀ p? : Option (Point (Checked K)), (∀ p ∈ p?, p ∈ points) →
      (p?.getD .origin).IsDefined := by
    intro p? hp
    cases p? with
    | none => exact Point.isDefined_origin
    | some p => exact h p (hp p rfl)
  have htotal : ((segmentLengths points).foldl (· + ·) 0).IsDefined := by
    apply List.foldlRecOn (motive := Checked.IsDefined)
    · exact isDefined_ofNat 0
    · intro sum hsum length hlength
      exact isDefined_add.mpr ⟨hsum, isDefined_segmentLengths h length hlength⟩
  unfold midpoint
  dsimp only
  split
  · exact hget _ fun p hp => List.mem_of_mem_head? hp
  · apply isDefined_pointAlong _ (isDefined_half.mpr htotal) h
    exact hget _ fun p hp => List.mem_of_mem_getLast? hp

theorem isDefined_placeLabel {text : TextMetrics (Checked K)} (htext : text.IsDefined)
    {points : List (Point (Checked K))} (h : ∀ p ∈ points, p.IsDefined) (lines : List String) :
    (placeLabel text points lines).rect.IsDefined := by
  apply Rect.isDefined_centered (isDefined_midpoint h)
  · simp [htext.charWidth, htext.paddingX]
  · simp [htext.lineHeight, htext.paddingY]

theorem isDefined_arrowhead {points : List (Point (Checked K))} (h : ∀ p ∈ points, p.IsDefined) :
    (arrowhead points).position.IsDefined ∧ (arrowhead points).angle.IsDefined := by
  unfold arrowhead
  split
  · exact ⟨Point.isDefined_origin, isDefined_ofNat 0⟩
  · rename_i tip before hreverse
    have hmem : ∀ p, p = tip ∨ p ∈ before → p.IsDefined := by
      intro p hp
      apply h p
      rw [← List.mem_reverse, hreverse]
      exact List.mem_cons.mpr hp
    have htip := hmem tip (.inl rfl)
    split
    · rename_i p hp
      have hbefore := hmem p (.inr (List.mem_of_find?_eq_some hp))
      exact ⟨htip, by simp [htip.1, htip.2, hbefore.1, hbefore.2]⟩
    · exact ⟨htip, isDefined_ofNat 0⟩

/-- An edge is defined if its route is. -/
theorem isDefined_routeEdge_iff {settings : Settings (Checked K)} (hsettings : settings.IsDefined)
    {outlines : Array (Outline (Checked K))} {centre : Nat → Checked K × Checked K}
    {plan : EdgePlan (Checked K)} :
    (routeEdge settings outlines centre plan).IsDefined ↔
      ∀ p ∈ (routeEdge settings outlines centre plan).points, p.IsDefined := by
  constructor
  · exact RoutedEdge.IsDefined.points
  · intro h
    obtain ⟨hposition, hangle⟩ := isDefined_arrowhead h
    refine ⟨h, hposition, hangle, ?_⟩
    intro label hlabel
    obtain ⟨lines, -, rfl⟩ := Option.mem_map.mp hlabel
    exact isDefined_placeLabel hsettings.text h lines

end Lines

/-! ## Routes that are clipped -/

section Routes

theorem clipEnds_eq_toward {L : Type} [Scalar L] (source target : Outline L) (a b : Point L)
    (mids : List (Point L)) :
    clipEnds source target (a :: (mids ++ [b])) =
      clip source (mids.head?.getD b) ::
        (mids ++ [clip target (mids.getLast?.getD (clip source b))]) := by
  by_cases h : mids = []
  · subst h
    rfl
  · rw [clipEnds_mids _ _ _ _ h, List.head?_eq_some_head h, List.getLast?_eq_some_getLast h]
    rfl

/-- Clipping moves with what is clipped. -/
theorem clip_shift {dx dy : Checked K} (hdx : dx.IsDefined) (hdy : dy.IsDefined)
    (r : Rect (Checked K)) (shape : Shape) (p : Point (Checked K)) :
    clip ⟨r.shift dx dy, shape⟩ (p.shift dx dy) = (clip ⟨r, shape⟩ p).shift dx dy := by
  have hwidth : (r.shift dx dy).width = r.width := rfl
  have hheight : (r.shift dx dy).height = r.height := rfl
  simp only [clip, Rect.shift_center, hwidth, hheight, Point.shift, add_sub_add_cancel _ _ hdx,
    add_sub_add_cancel _ _ hdy, add_swap _ dx, add_swap _ dy]
  split
  · rfl
  · cases shape with
    | box | plain => rfl
    | ellipse | circle | diamond =>
      dsimp only
      split <;> rfl

end Routes

section Ends

variable {L : Type} [Scalar L]

/-- What the first end of a route is clipped towards: the first point in between, or the centre of
the other node. -/
def sourceAim (m : PlacedNode L) (mids : List (Point L)) : Point L :=
  mids.head?.getD m.rect.center

/-- What the second end of a route is clipped towards: the last point in between, or the first
end. -/
def targetAim (n m : PlacedNode L) (mids : List (Point L)) : Point L :=
  mids.getLast?.getD (clip n.outline m.rect.center)

/-- An edge joins two nodes by a route through some points. -/
structure Joins (e : RoutedEdge L) (n m : PlacedNode L) (mids : List (Point L)) : Prop where
  source : n.id = e.source
  target : m.id = e.target
  points : e.points =
    clip n.outline (sourceAim m mids) :: (mids ++ [clip m.outline (targetAim n m mids)])

end Ends

section Moved

variable {dx dy : Checked K} (hdx : dx.IsDefined) (hdy : dy.IsDefined)
  (n m : PlacedNode (Checked K)) (mids : List (Point (Checked K)))

theorem sourceAim_shift : sourceAim (m.shift dx dy) (mids.map (·.shift dx dy)) =
    (sourceAim m mids).shift dx dy := by
  cases mids with
  | nil => exact Rect.shift_center _ _ _
  | cons p rest => rfl

include hdx hdy

theorem targetAim_shift :
    targetAim (n.shift dx dy) (m.shift dx dy) (mids.map (·.shift dx dy)) =
      (targetAim n m mids).shift dx dy := by
  have hclip : clip (n.shift dx dy).outline (m.shift dx dy).rect.center =
      (clip n.outline m.rect.center).shift dx dy := by
    rw [← clip_shift hdx hdy, ← Rect.shift_center]
    rfl
  rw [targetAim, hclip, List.getLast?_map, targetAim]
  cases mids.getLast? <;> rfl

variable {n m mids}

theorem Joins.shift {e : RoutedEdge (Checked K)} (h : Joins e n m mids) :
    Joins (e.shift dx dy) (n.shift dx dy) (m.shift dx dy) (mids.map (·.shift dx dy)) where
  source := h.source
  target := h.target
  points := by
    have hclip : ∀ (k : PlacedNode (Checked K)) (p : Point (Checked K)),
        clip (k.shift dx dy).outline (p.shift dx dy) = (clip k.outline p).shift dx dy :=
      fun k p => clip_shift hdx hdy k.rect k.shape p
    rw [sourceAim_shift, targetAim_shift hdx hdy, hclip, hclip]
    simp only [RoutedEdge.shift, h.points, List.map_cons, List.map_append, List.map_nil]

end Moved

/-- A route is defined unless one of its ends leads lengthwise along a box without width. -/
theorem isDefined_route_iff [IsStrictOrderedRing K] (hroots : ExactRoots K)
    {n m : PlacedNode (Checked K)} (hn : n.IsDefined) (hm : m.IsDefined)
    {mids : List (Point (Checked K))} (hmids : ∀ p ∈ mids, p.IsDefined) :
    (∀ p ∈ clip n.outline (sourceAim m mids) :: (mids ++ [clip m.outline (targetAim n m mids)]),
      p.IsDefined) ↔
      ¬n.outline.Lengthwise (sourceAim m mids) ∧ ¬m.outline.Lengthwise (targetAim n m mids) := by
  have hsource : (clip n.outline (sourceAim m mids)).IsDefined ↔
      ¬n.outline.Lengthwise (sourceAim m mids) := by
    apply isDefined_clip_iff hroots hn.rect hn.width hn.height
    cases mids with
    | nil => exact hm.rect.center
    | cons p rest => exact hmids p List.mem_cons_self
  have htarget : (clip n.outline (sourceAim m mids)).IsDefined →
      ((clip m.outline (targetAim n m mids)).IsDefined ↔
        ¬m.outline.Lengthwise (targetAim n m mids)) := by
    intro hfirst
    apply isDefined_clip_iff hroots hm.rect hm.width hm.height
    by_cases h : mids = []
    · subst h
      exact hfirst
    · rw [targetAim, List.getLast?_eq_some_getLast h]
      exact hmids _ (List.getLast_mem h)
  rw [List.forall_mem_cons, List.forall_mem_append, List.forall_mem_singleton]
  constructor
  · rintro ⟨hfirst, -, hlast⟩
    exact ⟨hsource.mp hfirst, (htarget hfirst).mp hlast⟩
  · rintro ⟨hfirst, hlast⟩
    have hdefined := hsource.mpr hfirst
    exact ⟨hdefined, hmids, (htarget hdefined).mpr hlast⟩

end Layout
end Tiered
