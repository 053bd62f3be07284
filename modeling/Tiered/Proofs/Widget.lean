import Tiered.Proofs.Exact
import Tiered.Widget

/-!
# A widget shows one thing

What a widget puts out, the size of its host and the scene in its container tell one fact three
times.

* `Consistent`: the three agree; `consistent_act_iff`: actions that draw or drop a scene bring them
  in step, and all others leave them as they are;
* `Shows.update`: what is shown after drawing is what the rows give, and depends on nothing that was
  shown before;
* `run_consistent`: so it is in any life of a widget that begins with a blank host, and in any other
  from the first drawing on.
-/

namespace Tiered.Widget

variable {K : Type} [Scalar K]

/-! ## What is done to a widget -/

/-- A widget that nothing was done to, in a host that is new. -/
def fresh (display : Display) (overrides : Overrides K) (anchor : String) (available : Size K) :
    Widget K :=
  { display, overrides, host := .new anchor available }

/-- A widget is new in some host, or it is mounted there with the first rows drawn. -/
inductive Origin (K : Type) where
  | new (display : Display) (host : Host K)
  | mount (display : Display) (host : Host K) (rows : List Row)

def Origin.widget : Origin K → Widget K
  | new display host => { display, host }
  | mount display host rows => .mount display host rows

/-- Nothing is left in the host that a new widget gets; mounting clears it. -/
def Origin.Blank : Origin K → Prop
  | new _ host => host.size = .zero ∧ host.container.scene = none
  | mount _ _ _ => True

inductive Action (K : Type) where
  | override (overrides : Overrides K)
  | update (rows : List Row)
  | setDisplay (display : Display) (rows : List Row)
  | resize (available : Size K)
  | unmount

def act (w : Widget K) : Action K → Widget K
  | .override overrides => { w with overrides }
  | .update rows => w.update rows
  | .setDisplay display rows => w.setDisplay display rows
  | .resize available => w.resize available
  | .unmount => w.unmount

/-- The action draws a scene or drops it. -/
def Action.Renews : Action K → Prop
  | .update _ | .setDisplay _ _ | .unmount => True
  | .override _ | .resize _ => False

def run (w : Widget K) (actions : List (Action K)) : Widget K := actions.foldl act w

/-! ## The three copies agree -/

/-- With a graph put out, its scene is in the container, under the anchor of the host, and both
have the size that is put out. With the placeholder there is neither a scene nor a size. -/
def Consistent (w : Widget K) : Prop :=
  match w.output, w.host.container.scene with
  | .graph size, some scene =>
    scene.width = size.width ∧ scene.height = size.height ∧ scene.anchor = w.host.anchor ∧
      w.host.size = size
  | .placeholder, none => w.host.size = .zero
  | _, _ => False

theorem consistent_unmount (w : Widget K) : w.unmount.Consistent := rfl

/-- What is rendered stands under the anchor of the host. -/
theorem anchor_of_render {w : Widget K} {rows : List Row} {scene : Scene K}
    (h : w.render rows = .ok scene) : scene.anchor = w.host.anchor := by
  unfold render at h
  split at h
  · cases h
  · split at h
    · cases h
    · cases h
      rfl

/-- Drawing brings a widget in step, whatever it was before. -/
theorem consistent_update (w : Widget K) (rows : List Row) : (w.update rows).Consistent := by
  unfold update
  cases h : w.render rows with
  | error e => exact consistent_unmount w
  | ok scene => exact ⟨rfl, rfl, anchor_of_render h, rfl⟩

theorem consistent_act_iff (w : Widget K) (a : Action K) :
    (w.act a).Consistent ↔ w.Consistent ∨ a.Renews := by
  cases a with
  | override | resize => exact (or_iff_left id).symm
  | update rows => exact iff_of_true (consistent_update w rows) (.inr trivial)
  | setDisplay display rows => exact iff_of_true (consistent_update _ rows) (.inr trivial)
  | unmount => exact iff_of_true (consistent_unmount w) (.inr trivial)

/-- The placeholder of a new widget agrees with a blank host. -/
theorem consistent_origin_iff (origin : Origin K) : origin.widget.Consistent ↔ origin.Blank := by
  cases origin with
  | new display host =>
    obtain ⟨anchor, available, size, ⟨scene⟩⟩ := host
    cases scene with
    | none => exact (and_iff_left rfl).symm
    | some scene => exact iff_of_false id fun h => nomatch h.2
  | mount display host rows => exact iff_of_true (consistent_update _ rows) trivial

theorem consistent_run_iff (w : Widget K) (actions : List (Action K)) :
    (w.run actions).Consistent ↔ w.Consistent ∨ ∃ a ∈ actions, a.Renews := by
  induction actions generalizing w with
  | nil => simp [run]
  | cons a rest ih =>
    have hrun : w.run (a :: rest) = (w.act a).run rest := rfl
    rw [hrun, ih, consistent_act_iff, or_assoc]
    simp only [List.mem_cons, exists_eq_or_imp]

/-! ## Nothing is left of what was shown -/

/-- Two widgets show the same. -/
structure Shows (w v : Widget K) : Prop where
  output : w.output = v.output
  size : w.host.size = v.host.size
  scene : w.host.container.scene = v.host.container.scene

/-- What is rendered depends on the display, the overrides and the anchor alone. -/
theorem render_congr {w v : Widget K} (hdisplay : w.display = v.display)
    (hoverrides : w.overrides = v.overrides) (hanchor : w.host.anchor = v.host.anchor)
    (rows : List Row) : w.render rows = v.render rows := by
  simp only [render, hdisplay, hoverrides, hanchor]

theorem Shows.update {w v : Widget K} (hdisplay : w.display = v.display)
    (hoverrides : w.overrides = v.overrides) (hanchor : w.host.anchor = v.host.anchor)
    (rows : List Row) : (w.update rows).Shows (v.update rows) := by
  unfold Widget.update
  rw [render_congr hdisplay hoverrides hanchor]
  cases v.render rows with
  | error e => exact ⟨rfl, rfl, rfl⟩
  | ok scene => exact ⟨rfl, rfl, rfl⟩

/-- A scene is shown if there is one to show. -/
theorem scene_update (w : Widget K) (rows : List Row) :
    (w.update rows).host.container.scene = (w.render rows).toOption := by
  unfold update
  cases w.render rows with
  | error e => rfl
  | ok scene => rfl

theorem anchor_update (w : Widget K) (rows : List Row) :
    (w.update rows).host.anchor = w.host.anchor := by
  unfold update
  cases w.render rows with
  | error e => rfl
  | ok scene => rfl

/-- A widget stays under its anchor. -/
theorem anchor_run (w : Widget K) (actions : List (Action K)) :
    (w.run actions).host.anchor = w.host.anchor := by
  have hact : ∀ (w : Widget K) (a : Action K), (w.act a).host.anchor = w.host.anchor := by
    intro w a
    cases a with
    | update rows => exact anchor_update w rows
    | setDisplay display rows => exact anchor_update _ rows
    | override | resize | unmount => rfl
  induction actions generalizing w with
  | nil => rfl
  | cons a rest ih => exact (ih (w.act a)).trans (hact w a)

/-- **A widget shows one thing.** Its output, its host and its container agree if they did when it
was made, or as soon as anything was drawn or dropped. When rows are drawn, it shows what they give,
as a fresh widget with the same display, the same overrides and the same anchor would; only the rows
that it is mounted with are drawn without its overrides. A host that changes the space it offers
changes nothing else. -/
theorem run_consistent (origin : Origin K) (actions : List (Action K)) :
    let w := origin.widget.run actions
    let anchor := origin.widget.host.anchor
    (w.Consistent ↔ origin.Blank ∨ ∃ a ∈ actions, a.Renews) ∧ w.host.anchor = anchor ∧
      (∀ rows, (w.update rows).host.container.scene = (w.render rows).toOption) ∧
      (∀ rows available,
        (w.update rows).Shows ((fresh w.display w.overrides anchor available).update rows)) ∧
      (∀ display rows available,
        (w.setDisplay display rows).Shows
          ((fresh display w.overrides anchor available).update rows)) ∧
      (∀ display (host : Host K) rows overrides available,
        ((Origin.mount display host rows).widget.act (.override overrides)).Shows
          ((fresh display {} host.anchor available).update rows)) ∧
      ∀ available, w.resize available = { w with host := { w.host with available } } := by
  intro w anchor
  have hanchor : w.host.anchor = anchor := anchor_run _ actions
  have hconsistent := consistent_run_iff origin.widget actions
  rw [consistent_origin_iff] at hconsistent
  refine ⟨hconsistent, hanchor, scene_update w, ?_, ?_, ?_, fun _ => rfl⟩
  · intro rows available
    exact Shows.update (w := w) (v := fresh w.display w.overrides anchor available)
      rfl rfl hanchor rows
  · intro display rows available
    exact Shows.update (w := { w with display })
      (v := fresh display w.overrides anchor available) rfl rfl hanchor rows
  · intro display host rows overrides available
    obtain ⟨houtput, hsize, hscene⟩ := Shows.update (w := { display, host })
      (v := fresh display {} host.anchor available) rfl rfl rfl rows
    exact ⟨houtput, hsize, hscene⟩

/-- A host of some width that nothing was drawn into. -/
def wideHost : Host ℚ := { Host.new "view" ⟨800, 600⟩ with size := ⟨10, 0⟩ }

/-- A loop, which is drawn where the direction of the ranks says. -/
def loopRows : List Row := [[("g", .text "digraph\x7ba->a\x7d")]]

/-- A new widget leaves the width of its host as it is, and overrides leave the drawing of a mounted
one as it is. -/
theorem run_consistent_wideHost :
    let display : Display := { column := some "g" }
    let sideways : Overrides ℚ := { direction := some .leftRight }
    ¬ (Origin.new display wideHost).widget.Consistent ∧
      ¬ ((Origin.mount display (.new "view" ⟨800, 600⟩) loopRows).widget.run
          [.override sideways]).Shows
        ((fresh display sideways "view" ⟨800, 600⟩).update loopRows) := by
  intro display sideways
  constructor
  · intro h
    have hwidth : (10 : ℚ) = (Size.zero : Size ℚ).width := congrArg Size.width h
    revert hwidth
    decide +kernel
  · intro h
    have houtput := h.output
    revert houtput
    decide +kernel

end Tiered.Widget
