/-!
# Checked words

Numbers of programs are 64-bit signed words. Checked arithmetic stops the program where a result
does not fit; wrapping arithmetic takes the result modulo 2⁶⁴.
-/

namespace EffectHandlers.Word

/-- How many 64-bit words there are: 2⁶⁴. -/
def count : Nat := 18446744073709551616

/-- The largest 64-bit signed word. -/
def max : Int := 9223372036854775807

/-- The smallest 64-bit signed word. -/
def min : Int := -9223372036854775808

/-- Whether a number is a 64-bit signed word. -/
def Fits (n : Int) : Prop := min ≤ n ∧ n ≤ max

instance (n : Int) : Decidable (Fits n) := inferInstanceAs (Decidable (_ ∧ _))

/-- The 64-bit signed word that is congruent to the number modulo 2⁶⁴. -/
def wrap (n : Int) : Int := n.bmod count

/-- The text of the panic when an operation overflows. -/
def overflow (operation : String) : String := "attempt to " ++ operation ++ " with overflow"

/-- A result that must fit. -/
def checked (operation : String) (n : Int) : Except String Int :=
  if Fits n then .ok n else .error (overflow operation)

/-- The sum of two words, if it is a word. -/
def add? (a b : Int) : Except String Int := checked "add" (a + b)

/-- The difference of two words, if it is a word. -/
def sub? (a b : Int) : Except String Int := checked "subtract" (a - b)

/-- The product of two words, if it is a word. -/
def mul? (a b : Int) : Except String Int := checked "multiply" (a * b)

/-- Remainder that is never negative; 0 where division is undefined or overflows. -/
def remainder (a b : Int) : Int :=
  if b = 0 ∨ (a = min ∧ b = -1) then 0 else a.emod b

end EffectHandlers.Word
