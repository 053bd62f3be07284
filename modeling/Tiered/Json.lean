import Tiered.Decimal.Reader

/-!
JSON values, as tables of data hold them, and the reading of JSON texts.
-/
namespace Tiered

inductive Json where
  | null
  | bool (b : Bool)
  | number (n : Numeral)
  | text (s : String)
  | list (items : List Json)
  | object (fields : List (String × Json))

namespace Json

/-- Fields by name. Of two fields with one name the later one counts. -/
abbrev Fields := List (String × Json)

def Fields.get? (fields : Fields) (name : String) : Option Json := fields.reverse.lookup name

def fields? : Json → Option Fields
  | object fields => some fields
  | _ => none

/-! Reading. A reader declines with `none`. -/

def isSpace (c : Char) : Bool := c == ' ' || c == '\n' || c == '\t' || c == '\r'

def skipSpace (s : List Char) : List Char := s.dropWhile isSpace

/-- The text behind a word that has to stand here. -/
def behind? : List Char → List Char → Option (List Char)
  | [], s => some s
  | c :: word, d :: s => if c = d then behind? word s else none
  | _ :: _, [] => none

def hexDigit? (c : Char) : Option Nat :=
  if c.isDigit then some (c.toNat - '0'.toNat)
  else if 'a' ≤ c ∧ c ≤ 'f' then some (c.toNat - 'a'.toNat + 10)
  else if 'A' ≤ c ∧ c ≤ 'F' then some (c.toNat - 'A'.toNat + 10)
  else none

def hex4? (a b c d : Char) : Option Nat := do
  let high := 16 * (← hexDigit? a) + (← hexDigit? b)
  let low := 16 * (← hexDigit? c) + (← hexDigit? d)
  return 256 * high + low

/-- The character of an escape with one letter. -/
def escaped? (c : Char) : Option Char :=
  match c with
  | '"' | '\\' | '/' => some c
  | 'b' => some '\x08'
  | 'f' => some '\x0c'
  | 'n' => some '\n'
  | 'r' => some '\r'
  | 't' => some '\t'
  | _ => none

/-- The text up to the closing quote, the part read so far being held in reverse. Characters
outside the basic plane are escaped as two surrogates; one alone is refused. -/
def string? (read : List Char) : List Char → Option (String × List Char)
  | '"' :: rest => some (String.ofList read.reverse, rest)
  | '\\' :: 'u' :: a :: b :: c :: d :: rest =>
    match hex4? a b c d with
    | none => none
    | some n =>
      if n < 0xD800 ∨ 0xDFFF < n then string? (Char.ofNat n :: read) rest
      else if 0xDC00 ≤ n then none
      else
        match rest with
        | '\\' :: 'u' :: e :: f :: g :: h :: rest =>
          match hex4? e f g h with
          | none => none
          | some low =>
            if 0xDC00 ≤ low ∧ low ≤ 0xDFFF then
              let n := 0x10000 + (n - 0xD800) * 0x400 + (low - 0xDC00)
              string? (Char.ofNat n :: read) rest
            else none
        | _ => none
  | '\\' :: c :: rest =>
    match escaped? c with
    | some c => string? (c :: read) rest
    | none => none
  | c :: rest => if c.toNat < 0x20 then none else string? (c :: read) rest
  | [] => none

/-- Digits, the first of which is zero only if it is the only one. -/
def whole? (s : List Char) : Option (List Char × List Char) :=
  match s.takeWhile Char.isDigit, s.dropWhile Char.isDigit with
  | [], _ => none
  | ['0'], rest => some (['0'], rest)
  | '0' :: _, _ => none
  | ds, rest => some (ds, rest)

/-- Places behind a point. -/
def places? (s : List Char) : Option (List Char × List Char) :=
  match s with
  | '.' :: rest =>
    match rest.takeWhile Char.isDigit with
    | [] => none
    | ds => some (ds, rest.dropWhile Char.isDigit)
  | _ => some ([], s)

def exponent? (s : List Char) : Option (Int × List Char) :=
  match s with
  | e :: rest =>
    if e = 'e' ∨ e = 'E' then
      let (negative, rest) := Numeral.sign rest
      match rest.takeWhile Char.isDigit with
      | [] => none
      | ds =>
        let n : Int := Numeral.ofDigits ds
        some (if negative then -n else n, rest.dropWhile Char.isDigit)
    else some (0, s)
  | [] => some (0, s)

/-- Whether digits with an exponent are below every number that rounds to `2 ^ 1024`. -/
def inRange (digits : Nat) (exponent : Int) : Bool :=
  let limit := (1 <<< 1024) - (1 <<< 970)
  if digits = 0 then true
  else if 400 < exponent then false
  else
    match exponent with
    | .ofNat e => digits * Nat.pow 10 e < limit
    | .negSucc e => digits < limit * Nat.pow 10 (min (e + 1) (Nat.log2 digits))

/-- A number; one too large for double precision is refused. -/
def number? (s : List Char) : Option (Json × List Char) := do
  let negative := s.head? = some '-'
  let (ds, rest) ← whole? (if negative then s.tail else s)
  let (places, rest) ← places? rest
  let (e, rest) ← exponent? rest
  let digits := Numeral.ofDigits (ds ++ places)
  let exponent := e - places.length
  if inRange digits exponent then return (.number (.decimal negative digits exponent), rest)
  none

/-- Items with commas between them, up to the closing bracket. There is at least one. -/
def items? {α : Type} (close : Char) (item : List Char → Option (α × List Char))
    (s : List Char) : Option (List α × List Char) :=
  match item s with
  | none => none
  | some (a, rest) =>
    match skipSpace rest with
    | [] => none
    | c :: rest =>
      if c = close then some ([a], rest)
      else if c = ',' ∧ rest.length < s.length then
        (items? close item rest).map fun (as, rest) => (a :: as, rest)
      else none
termination_by s.length

/-- A field: a name, a colon and a value. -/
def field? (value : List Char → Option (Json × List Char)) (s : List Char) :
    Option ((String × Json) × List Char) :=
  match skipSpace s with
  | '"' :: rest =>
    match string? [] rest with
    | none => none
    | some (name, rest) =>
      match skipSpace rest with
      | ':' :: rest => (value rest).map fun (v, rest) => ((name, v), rest)
      | _ => none
  | _ => none

/-- A value in which lists and objects are nested at most `depth` deep. -/
def value? : Nat → List Char → Option (Json × List Char)
  | depth, s =>
    match skipSpace s with
    | 'n' :: rest => (behind? ['u', 'l', 'l'] rest).map (null, ·)
    | 't' :: rest => (behind? ['r', 'u', 'e'] rest).map (bool true, ·)
    | 'f' :: rest => (behind? ['a', 'l', 's', 'e'] rest).map (bool false, ·)
    | '"' :: rest => (string? [] rest).map fun (t, rest) => (text t, rest)
    | '[' :: rest =>
      match depth with
      | 0 => none
      | depth + 1 =>
        match skipSpace rest with
        | ']' :: rest => some (list [], rest)
        | rest => (items? ']' (value? depth) rest).map fun (vs, rest) => (list vs, rest)
    | '{' :: rest =>
      match depth with
      | 0 => none
      | depth + 1 =>
        match skipSpace rest with
        | '}' :: rest => some (object [], rest)
        | rest =>
          (items? '}' (field? (value? depth)) rest).map fun (fs, rest) => (object fs, rest)
    | s => number? s

/-- How deep lists and objects may be nested. -/
def maxNesting : Nat := 127

/-- Reads a text that is one JSON value. -/
def ofString? (s : String) : Option Json :=
  match value? maxNesting s.toList with
  | some (v, rest) => if (skipSpace rest).isEmpty then some v else none
  | none => none

end Json
end Tiered
