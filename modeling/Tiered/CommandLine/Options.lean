import Tiered.Scalar.Float
import Tiered.Settings

/-!
The options of the command line. An option is given at most once; its value is the next argument,
unless that begins like an option, or stands behind an equals sign.
-/
namespace Tiered.CommandLine

structure Options where
  file : Option String := none
  rows : Bool := false
  column : Option String := none
  width : Option Float := none
  height : Option Float := none
  direction : Option Direction := none
  nodeSep : Option Float := none
  rankSep : Option Float := none
  output : Option String := none
  verbose : Bool := false

/-- Why arguments are not run. -/
inductive Stop where
  | help
  | misuse
  deriving DecidableEq, Repr

inductive Flag where
  | rows
  | verbose
  deriving DecidableEq, Repr

/-- The arguments that have a value. -/
inductive Key where
  | file
  | column
  | width
  | height
  | direction
  | nodeSep
  | rankSep
  | output
  deriving DecidableEq, Repr

/-- What an argument with hyphens begins. -/
inductive Switch where
  | help
  | flag (f : Flag)
  | key (k : Key)
  deriving DecidableEq, Repr

def long? : String → Option Switch
  | "help" => some .help
  | "rows" => some (.flag .rows)
  | "verbose" => some (.flag .verbose)
  | "column" => some (.key .column)
  | "width" => some (.key .width)
  | "height" => some (.key .height)
  | "rankdir" => some (.key .direction)
  | "nodesep" => some (.key .nodeSep)
  | "ranksep" => some (.key .rankSep)
  | "output" => some (.key .output)
  | _ => none

def short? : Char → Option Switch
  | 'h' => some .help
  | 'v' => some (.flag .verbose)
  | 'o' => some (.key .output)
  | _ => none

/-- Any number, an unbounded or undefined one included. -/
def number? (text : String) : Option Float :=
  (Numeral.read? text).map fun
    | .decimal negative digits exponent => Scalar.ofDecimal negative digits exponent
    | .unbounded negative => if negative then -1.0 / 0.0 else 1.0 / 0.0
    | .undefined => 0.0 / 0.0

/-- Sets what is not set yet to a value that can be read. -/
def setOnce {α : Type} (old : Option α) (value : Option α) : Except Stop (Option α) :=
  match old, value with
  | none, some v => .ok (some v)
  | _, _ => .error .misuse

/-- A path, which is not empty. -/
def path? (text : String) : Option String := if text = "" then none else some text

namespace Options

def raise (o : Options) : Flag → Except Stop Options
  | .rows => if o.rows then .error .misuse else .ok { o with rows := true }
  | .verbose => if o.verbose then .error .misuse else .ok { o with verbose := true }

def set (o : Options) (key : Key) (value : String) : Except Stop Options := do
  match key with
  | .file => return { o with file := ← setOnce o.file (path? value) }
  | .column => return { o with column := ← setOnce o.column (some value) }
  | .width => return { o with width := ← setOnce o.width (number? value) }
  | .height => return { o with height := ← setOnce o.height (number? value) }
  | .direction =>
    return { o with direction := ← setOnce o.direction (Direction.ofName value).toOption }
  | .nodeSep => return { o with nodeSep := ← setOnce o.nodeSep (number? value) }
  | .rankSep => return { o with rankSep := ← setOnce o.rankSep (number? value) }
  | .output => return { o with output := ← setOnce o.output (path? value) }

/-- Reads the letters behind one hyphen. A letter with a value takes all that follows it; if
nothing does, its value is still to come. -/
def readShorts (o : Options) : List Char → Except Stop (Options × Option Key)
  | [] => .ok (o, none)
  | c :: rest =>
    match short? c with
    | none => .error .misuse
    | some .help => .error .help
    | some (.flag f) => do (← o.raise f).readShorts rest
    | some (.key k) =>
      match rest with
      | [] => .ok (o, some k)
      | '=' :: value | value => return (← o.set k (String.ofList value), none)

/-- Reads what stands behind two hyphens. -/
def readLong (o : Options) (s : List Char) : Except Stop (Options × Option Key) :=
  let value := match s.dropWhile (· ≠ '=') with
    | _ :: value => some (String.ofList value)
    | [] => none
  match long? (String.ofList (s.takeWhile (· ≠ '='))), value with
  | none, _ => .error .misuse
  | some .help, none => .error .help
  | some .help, some _ => .error .misuse
  | some (.flag f), none => return (← o.raise f, none)
  | some (.flag _), some _ => .error .misuse
  | some (.key k), none => .ok (o, some k)
  | some (.key k), some value => return (← o.set k value, none)

/-- Reads arguments. `pending` is an argument whose value is still to come; behind two hyphens
alone, nothing is an option. -/
def readAll (o : Options) (pending : Option Key) : List String → Except Stop Options
  | [] => if pending.isSome then .error .misuse else .ok o
  | arg :: rest => do
    match arg.toList, pending with
    | ['-', '-'], none => rest.foldlM (·.set .file) o
    | '-' :: '-' :: s, none =>
      let (o, pending) ← o.readLong s
      o.readAll pending rest
    | '-' :: c :: s, none =>
      let (o, pending) ← o.readShorts (c :: s)
      o.readAll pending rest
    | '-' :: _ :: _, some _ => throw .misuse
    | _, none => (← o.set .file arg).readAll none rest
    | _, some key => (← o.set key arg).readAll none rest

/-- Reads all arguments. A column is of use with rows only. -/
def ofArgs (args : List String) : Except Stop Options := do
  let o ← readAll {} none args
  if o.column.isSome && !o.rows then throw .misuse
  return o

def overrides (o : Options) : Overrides Float :=
  { direction := o.direction, nodeSep := o.nodeSep, rankSep := o.rankSep }

end Options
end Tiered.CommandLine
