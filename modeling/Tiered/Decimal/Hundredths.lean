/-!
Decimals with at most two places. A number is first rounded to a whole count of hundredths; the
count is then written with the fewest digits that denote it.
-/
namespace Tiered

/-- A number rounded to hundredths, or what cannot be counted. -/
inductive Hundredths where
  | count (k : Int)
  | unbounded (negative : Bool)
  | undefined
  deriving DecidableEq, Repr

namespace Hundredths

/-- The quotient of two whole numbers rounded to nearest, a half to the even neighbour. -/
def roundDiv (num den : Nat) : Nat :=
  let q := num / den
  let r := num % den
  if 2 * r < den then q
  else if den < 2 * r then q + 1
  else q + q % 2

/-- `n` hundredths: no zero ends the places, and no point stands alone. -/
def digits (n : Nat) : List Char :=
  let whole := (toString (n / 100)).toList
  let tenth := Nat.digitChar (n / 10 % 10)
  let last := Nat.digitChar (n % 10)
  if n % 100 = 0 then whole
  else if n % 10 = 0 then whole ++ ['.', tenth]
  else whole ++ ['.', tenth, last]

def chars : Hundredths → List Char
  | count k => if k < 0 then '-' :: digits k.natAbs else digits k.natAbs
  | unbounded negative => if negative then "-inf".toList else "inf".toList
  | undefined => "NaN".toList

def text (h : Hundredths) : String := String.ofList h.chars

end Hundredths
end Tiered
