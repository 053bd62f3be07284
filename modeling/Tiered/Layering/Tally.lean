/-!
Tallies of numbers from one to a bound. Entry `i` counts the numbers above `i - lowBit i` up to
`i`, so that noting a number and asking how many are at most `i` both take few steps.
-/
namespace Tiered.Layering

/-- The largest power of two that divides a positive number. -/
def lowBit (n : Nat) : Nat :=
  if n % 2 = 1 ∨ n = 0 then 1 else 2 * lowBit (n / 2)

theorem lowBit_pos (n : Nat) : 0 < lowBit n := by
  fun_induction lowBit n with
  | case1 => exact Nat.one_pos
  | case2 n _ ih => omega

structure Tally where
  /-- Entry zero is not used. -/
  counts : Array Nat

namespace Tally

def empty (bound : Nat) : Tally := ⟨Array.replicate (bound + 1) 0⟩

/-- Counts one more in entry `i` and in all entries that cover it. -/
def addFrom (counts : Array Nat) (i : Nat) : Array Nat :=
  if _h : i < counts.size then addFrom (counts.modify i (· + 1)) (i + lowBit i) else counts
termination_by counts.size - i
decreasing_by
  have := lowBit_pos i
  simp only [Array.size_modify]
  omega

def add (t : Tally) (i : Nat) : Tally := ⟨addFrom t.counts i⟩

/-- How many numbers are at most `i`. -/
def upTo (t : Tally) (i : Nat) : Nat :=
  if _h : 0 < i then t.counts.getD i 0 + upTo t (i - lowBit i) else 0
termination_by i
decreasing_by
  have := lowBit_pos i
  omega

end Tally
end Tiered.Layering
