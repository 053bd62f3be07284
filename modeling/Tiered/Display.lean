import Tiered.Json
import Tiered.Text.Blank

/-!
Which cell of a table holds the text to draw.
-/
namespace Tiered

/-- One row of a table, values by column name. -/
abbrev Row := Json.Fields

/-- How a table is displayed. -/
structure Display where
  /-- The column with the DOT text. -/
  column : Option String := none
  deriving DecidableEq, Repr

inductive DisplayError where
  | missingColumn
  | noRows
  | missingValue (column : String)
  | notText (column : String)
  | emptyDot
  deriving DecidableEq, Repr

def DisplayError.message : DisplayError → String
  | missingColumn => "no DOT column configured"
  | noRows => "no data rows available"
  | missingValue column => "column `" ++ column ++ "` is missing from the first row"
  | notText column => "column `" ++ column ++ "` does not hold text"
  | emptyDot => "DOT string is empty"

/-- A DOT text and the column it comes from. -/
structure Request where
  dot : String
  column : String
  deriving DecidableEq, Repr

namespace Display

/-- A display is an object whose `dotColumn` is a text, null or missing. -/
def ofJson? (j : Json) : Option Display :=
  match j with
  | .object fields =>
    match Json.Fields.get? fields "dotColumn" with
    | none | some .null => some { column := none }
    | some (.text column) => some { column := some column }
    | some _ => none
  | _ => none

/-- Reads the text from the first row. A blank column name is no column, and a blank text none. -/
def request (d : Display) (rows : List Row) : Except DisplayError Request :=
  match d.column.filter (!Text.blank ·) with
  | none => .error .missingColumn
  | some column =>
    match rows with
    | [] => .error .noRows
    | row :: _ =>
      match Json.Fields.get? row column with
      | none => .error (.missingValue column)
      | some (.text dot) => if Text.blank dot then .error .emptyDot else .ok { dot, column }
      | some _ => .error (.notText column)

end Display

/-- Rows are a list of objects. -/
def rowsOfJson? (j : Json) : Option (List Row) :=
  match j with
  | .list items => items.mapM Json.fields?
  | _ => none

end Tiered
