import Tiered.Scalar

/-!
Reading numbers that are written in decimal.
-/
namespace Tiered

/-- A number as it is written: exact, without a bound, or no number at all. -/
inductive Numeral where
  | decimal (negative : Bool) (digits : Nat) (exponent : Int)
  | unbounded (negative : Bool)
  | undefined
  deriving DecidableEq, Repr

namespace Numeral

/-- The number that decimal digits denote. -/
def ofDigits (ds : List Char) : Nat :=
  ds.foldl (fun n d => 10 * n + (d.toNat - '0'.toNat)) 0

/-- A sign, if there is one, and the rest. -/
def sign (s : List Char) : Bool × List Char :=
  match s with
  | '-' :: rest => (true, rest)
  | '+' :: rest => (false, rest)
  | _ => (false, s)

/-- An exponent behind the digits. Nothing stands for zero. -/
def exponent? (s : List Char) : Option Int :=
  match s with
  | [] => some 0
  | e :: rest =>
    let (negative, ds) := sign rest
    if (e = 'e' || e = 'E') && !ds.isEmpty && ds.all Char.isDigit then
      some (if negative then -(ofDigits ds : Int) else ofDigits ds)
    else none

/-- Digits with at most one point, of which at least one is there, and an exponent. -/
def decimal? (negative : Bool) (s : List Char) : Option Numeral :=
  let whole := s.takeWhile Char.isDigit
  let behind := s.dropWhile Char.isDigit
  let (places, behind) := match behind with
    | '.' :: rest => (rest.takeWhile Char.isDigit, rest.dropWhile Char.isDigit)
    | _ => ([], behind)
  if whole.isEmpty && places.isEmpty then none
  else (exponent? behind).map fun e =>
    .decimal negative (ofDigits (whole ++ places)) (e - places.length)

/-- The whole text has to be a number. Words for no bound and for no number are read in any ASCII
letter case. -/
def read? (text : String) : Option Numeral :=
  let (negative, s) := sign text.toList
  match String.ofList (s.map Char.toLower) with
  | "inf" | "infinity" => some (.unbounded negative)
  | "nan" => some .undefined
  | _ => decimal? negative s

/-- A whole number below `2 ^ 64`, which may have a plus sign. -/
def natural? (text : String) : Option Nat :=
  let ds := match text.toList with
    | '+' :: rest => rest
    | s => s
  if !ds.isEmpty && ds.all Char.isDigit && ofDigits ds < 1 <<< 64 then some (ofDigits ds) else none

variable {K : Type} [Scalar K]

/-- The number itself, if it is finite. -/
def finite? : Numeral → Option K
  | decimal negative digits exponent =>
    let x : K := Scalar.ofDecimal negative digits exponent
    if Scalar.finite x then some x else none
  | _ => none

/-- Reads a finite number that is not negative. -/
def length? (text : String) : Option K :=
  ((read? text).bind finite?).filter Scalar.isLength

end Numeral
end Tiered
