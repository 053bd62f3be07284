import Tiered.CommandLine.Options
import Tiered.Widget

/-!
The command line: a text is read from a file or from the input, drawn, and written to a file or to
the output. With rows, the text is a table that is drawn as a widget would show it.
-/
namespace Tiered.CommandLine

/-- The surroundings of a run. What fails gives a reason. -/
structure World (m : Type → Type) where
  input : m (Except String String)
  load : String → m (Except String String)
  save : String → String → m (Except String Unit)

structure Outcome where
  exitCode : Nat
  output : String := ""
  errorLine : Option String := none

inductive RunError where
  | unreadableFile (path reason : String)
  | unreadableInput (reason : String)
  | invalidRows
  | notDrawn (e : RenderError)
  | unwritableFile (path reason : String)

def RunError.message : RunError → String
  | unreadableFile path reason => "failed to read " ++ path ++ ": " ++ reason
  | unreadableInput reason => "failed to read stdin: " ++ reason
  | invalidRows => "invalid rows JSON"
  | notDrawn e => e.message
  | unwritableFile path reason => "failed to write " ++ path ++ ": " ++ reason

def Outcome.failure (e : RunError) : Outcome :=
  { exitCode := 1, errorLine := some ("ERROR: " ++ e.message) }

def usage : String :=
  "Lay out DOT graphs and render them as SVG\n\nUsage: tiered [OPTIONS] [FILE]\n\n" ++
    "Options: --rows, --column C, --width F, --height F, --rankdir D, --nodesep F, " ++
    "--ranksep F,\n  -o/--output PATH, -v/--verbose, -h/--help\n"

/-- What the text read is drawn as. -/
def render (o : Options) (text : String) : Except RunError String :=
  if o.rows then
    match (Json.ofString? text).bind rowsOfJson? with
    | none => .error .invalidRows
    | some rows =>
      let available : Size Float := ⟨o.width.getD 800.0, o.height.getD 600.0⟩
      let widget : Widget Float :=
        { display := { column := o.column }
          overrides := o.overrides
          host := .new Scene.standardAnchor available }
      .ok (widget.update rows).toHtml
  else
    match Diagram.ofDot text o.overrides with
    | .error e => .error (.notDrawn e)
    | .ok diagram => .ok diagram.scene.toSvg

variable {m : Type → Type} [Monad m]

def readText (world : World m) (o : Options) : m (Except RunError String) := do
  match o.file with
  | some path => return (← world.load path).mapError (.unreadableFile path)
  | none => return (← world.input).mapError .unreadableInput

def writeText (world : World m) (o : Options) (text : String) : m Outcome := do
  match o.output with
  | none => return { exitCode := 0, output := text }
  | some path =>
    match ← world.save path text with
    | .ok () => return { exitCode := 0 }
    | .error reason => return .failure (.unwritableFile path reason)

/-- Runs the program with these arguments. -/
def run (world : World m) (args : List String) : m Outcome := do
  match Options.ofArgs args with
  | .error .help => return { exitCode := 0, output := usage }
  | .error .misuse => return { exitCode := 2 }
  | .ok o =>
    match (← readText world o).bind (render o) with
    | .error e => return .failure e
    | .ok text => writeText world o text

end Tiered.CommandLine
