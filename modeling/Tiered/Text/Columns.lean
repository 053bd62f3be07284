import Tiered.Text.Width

/-!
How many columns a text takes on a fixed-pitch display. Most characters count for themselves; a
few sequences are drawn as one, so a text is read from its end with what follows in view.
-/
namespace Tiered.Text

open Width

/-- A letter that can merge with one before it. -/
inductive Ligature where
  | lamed
  | buginese
  | bugineseVowel
  | khmer
  | tifinagh
  | tifinaghJoiner
  | lisu
  | orkhon
  deriving DecidableEq, Repr

/-- What stands behind a character, as far as the character's own columns depend on it. -/
inductive Follow where
  | other
  | lineFeed
  | emoji
  | tone
  | indicator
  | indicators
  | alef
  | vowelE
  | vowelAi
  | letter (l : Ligature) (joined : Bool)
  /-- A joiner that ties what stands before it to an emoji. -/
  | joiner
  | joinerKeycap
  | joinerIndicator
  | joinerEven
  | joinerOdd
  /-- The end of a flag sequence before a joiner, with the letters and digits read so far. -/
  | joinerTags (letters digits : Nat)
  deriving DecidableEq, Repr

/-- A variation selector behind a character. -/
inductive Selector where
  | none
  | text
  | emoji
  deriving DecidableEq, Repr

structure Behind where
  follow : Follow := .other
  selector : Selector := .none
  deriving DecidableEq, Repr

namespace Behind

def emoji : Behind := { follow := .emoji }

/-- Default-ignorable marks, across which letters still merge. -/
def isLoose (n : Nat) : Bool :=
  within n [(0x34F, 0x34F), (0x17B4, 0x17B5), (0x180B, 0x180D), (0x180F, 0x180F),
    (0x200D, 0x200D), (0xFE00, 0xFE0F), (0xE0100, 0xE01EF)]

def isIndicator (n : Nat) : Bool := 0x1F1E6 ≤ n && n ≤ 0x1F1FF

def isTone (n : Nat) : Bool := 0x1F3FB ≤ n && n ≤ 0x1F3FF

def isTifinagh (n : Nat) : Bool := (0x2D31 ≤ n && n ≤ 0x2D65) || n == 0x2D6F

/-- Khmer letters that are drawn below another after the sign coeng. -/
def isKhmer (n : Nat) : Bool :=
  within n [(0x1780, 0x1782), (0x1784, 0x1787), (0x1789, 0x178C), (0x178E, 0x1793),
    (0x1795, 0x1798), (0x179B, 0x179D), (0x17A0, 0x17A0), (0x17A2, 0x17A2), (0x17A7, 0x17A7),
    (0x17AB, 0x17AC), (0x17AF, 0x17AF)]

/-- The columns of a character on its own. The Khmer sign beyyal is three letters wide. -/
def alone (n : Nat) : Int :=
  if n ≤ 0xA0 then 1
  else if n == 0x17D8 then 3
  else if within n zeroWidth then 0
  else if within n doubleWidth then 2
  else 1

/-- What a character is to the one before it. -/
def ofChar (n : Nat) : Behind :=
  if n == 0xFE0F then { selector := .emoji }
  else if n == 0xFE0E then { selector := .text }
  else if isTone n then { follow := .tone }
  else if isIndicator n then { follow := .indicator }
  else if within n pictographs then emoji
  else if within n alefs then { follow := .alef }
  else if n == 0x5DC then { follow := .letter .lamed false }
  else if n == 0x1A10 then { follow := .letter .buginese false }
  else if isKhmer n then { follow := .letter .khmer false }
  else if isTifinagh n then { follow := .letter .tifinagh false }
  else if n == 0xA4FC || n == 0xA4FD then { follow := .letter .lisu false }
  else if n == 0x10C03 then { follow := .letter .orkhon false }
  else if n == 0x16D67 then { follow := .vowelE }
  else if n == 0x16D68 then { follow := .vowelAi }
  else {}

/-- The columns a character adds where it is drawn together with what follows. -/
def merged? (n : Nat) (follow : Follow) : Option (Int × Behind) :=
  match follow with
  | .alef =>
    if within n lams then some (0, {})
    else if within n transparents then some (0, { follow := .alef })
    else none
  | .letter .lamed true => if n == 0x5D0 then some (0, {}) else none
  | .letter .khmer _ => if n == 0x17D2 then some (-1, {}) else none
  | .letter .buginese true =>
    if n == 0x1A17 then some (0, { follow := .letter .bugineseVowel true }) else none
  | .letter .bugineseVowel _ => if n == 0x1A15 then some (0, {}) else none
  | .letter .tifinagh joined =>
    if n == 0x2D7F then some (1, { follow := .letter .tifinaghJoiner true })
    else if joined && isTifinagh n then some (0, {})
    else none
  | .letter .tifinaghJoiner _ => if isTifinagh n then some (-1, {}) else none
  | .letter .lisu _ => if 0xA4F8 ≤ n ∧ n ≤ 0xA4FB then some (0, {}) else none
  | .letter .orkhon true => if n == 0x10C32 then some (0, {}) else none
  | .vowelE =>
    if n == 0x16D63 || n == 0x16D69 then some (0, {})
    else if n == 0x16D67 then some (0, { follow := .vowelAi })
    else if n == 0x16D68 then some (1, { follow := .vowelE })
    else none
  | .vowelAi => if n == 0x16D63 then some (0, {}) else none
  | .tone =>
    if n == 0x200D then some (0, { follow := .joiner })
    else if within n toneBases then some (0, emoji)
    else none
  | .indicator => if isIndicator n then some (1, { follow := .indicators }) else none
  | .indicators =>
    if isIndicator n then some (1, { follow := .indicators })
    else if n == 0x200D then some (0, { follow := .joiner })
    else none
  | .emoji => if n == 0x200D then some (0, { follow := .joiner }) else none
  | .joiner =>
    if n == 0x20E3 then some (0, { follow := .joinerKeycap })
    else if isIndicator n then some (1, { follow := .joinerIndicator })
    else if isTone n then some (0, { follow := .tone })
    else if n == 0xE007F then some (0, { follow := .joinerTags 0 0 })
    else if within n pictographs then some (0, emoji)
    else none
  | .joinerIndicator => if isIndicator n then some (-1, { follow := .joinerEven }) else none
  | .joinerEven =>
    if isIndicator n then some (3, { follow := .joinerOdd })
    else if n == 0x200D then some (0, { follow := .joiner })
    else none
  | .joinerOdd =>
    if isIndicator n then some (-1, { follow := .joinerEven })
    else if n == 0x200D then some (0, { follow := .joiner })
    else none
  | .joinerTags letters digits =>
    if 0xE0061 ≤ n ∧ n ≤ 0xE007A ∧ letters < 6 ∧ digits = 0 then
      some (0, { follow := .joinerTags (letters + 1) 0 })
    else if 0xE0030 ≤ n ∧ n ≤ 0xE0039 ∧ letters < 5 ∧ digits < 3 then
      some (0, { follow := .joinerTags letters (digits + 1) })
    else if n == 0x1F3F4 && (decide (3 ≤ letters) && digits == 0 || digits == 3) then
      some (0, emoji)
    else none
  | _ => none

/-- The columns a character adds in front of what stands behind it, and what both are together. -/
def before (n : Nat) (b : Behind) : Int × Behind :=
  if b.selector = .emoji ∧ within n emojiBases then
    (if b.follow = .joiner ∨ b.follow = .joinerKeycap then 0 else 2, emoji)
  else if n ≤ 0xA0 then
    if n = 0x0A then (1, { follow := .lineFeed })
    else if n = 0x0D ∧ b.follow = .lineFeed then (0, {})
    else (1, {})
  else
    let holds := match b.follow with
      | .letter _ _ => true
      | _ => false
    if n = 0xFE0F then
      (0, { follow := if holds || b.follow == .joiner || b.follow == .joinerKeycap then b.follow
              else .other
            selector := .emoji })
    else if n = 0xFE0E then
      (0, { follow := if holds then b.follow else .other, selector := .text })
    else if b.selector = .text ∧ within n textBases then (1, {})
    else
      let loose : Option (Int × Behind) := match b.follow with
        | .letter l joined =>
          if n = 0x200D then some (0, { follow := .letter l true })
          else if isLoose n then some (0, { follow := .letter l joined })
          else none
        | _ => none
      match loose with
      | some r => r
      | none => (merged? n b.follow).getD (alone n, ofChar n)

end Behind

/-- The columns of a text. -/
def columns (s : List Char) : Nat :=
  let step (c : Char) (right : Int × Behind) : Int × Behind :=
    let (width, behind) := right.2.before c.toNat
    (right.1 + width, behind)
  (s.foldr step (0, {})).1.toNat

/-- The columns of the widest of some lines. -/
def widest (lines : List String) : Nat :=
  lines.foldl (fun w line => max w (columns line.toList)) 0

end Tiered.Text
