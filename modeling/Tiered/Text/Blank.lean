/-!
White space: which characters are blank, and the trimming and the first word of a text.
-/
namespace Tiered.Text

/-- The twenty-five characters with the Unicode property White_Space. -/
def isBlank (c : Char) : Bool :=
  let n := c.toNat
  (9 ≤ n && n ≤ 13) || n == 0x20 || n == 0x85 || n == 0xA0 || n == 0x1680 ||
    (0x2000 ≤ n && n ≤ 0x200A) || n == 0x2028 || n == 0x2029 || n == 0x202F ||
    n == 0x205F || n == 0x3000

/-- A text without the blanks at its two ends. -/
def strip (s : List Char) : List Char :=
  ((s.dropWhile isBlank).reverse.dropWhile isBlank).reverse

def trim (s : String) : String :=
  String.ofList (strip s.toList)

/-- Nothing but blanks. -/
def blank (s : String) : Bool :=
  s.toList.all isBlank

/-- The first run of characters that are not blank. -/
def firstWord? (s : String) : Option String :=
  match (s.toList.dropWhile isBlank).takeWhile (!isBlank ·) with
  | [] => none
  | word => some (String.ofList word)

end Tiered.Text
