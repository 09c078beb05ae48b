/-!
# Sizes in bytes

Sizes from a kilobyte on are shown in KB or MB with two decimals. The size is first rounded to
the nearest number with 53 binary digits, then the exact quotient is rounded to two decimals;
a tie goes to the even neighbour both times.
-/

namespace EffectHandlers.ByteSize

/-- The integer nearest to `num / den`, the even one of two that are equally near. -/
def roundHalfEven (num den : Nat) : Nat :=
  let q := num / den
  let r := num % den
  if 2 * r < den then q
  else if den < 2 * r then q + 1
  else if q % 2 = 0 then q else q + 1

/-- The number with at most 53 binary digits that is nearest to `n`. -/
def toBinary53 (n : Nat) : Nat :=
  if n.log2 < 53 then n
  else
    let unit := Nat.pow 2 (n.log2 - 52)
    roundHalfEven n unit * unit

/-- A quotient with two decimals. -/
def twoDecimals (num den : Nat) : String :=
  let hundredths := roundHalfEven (num * 100) den
  let rest := hundredths % 100
  toString (hundredths / 100) ++ "." ++ (if rest < 10 then "0" else "") ++ toString rest

/-- The text of a size. -/
def format (bytes : Nat) : String :=
  if 1048576 ≤ bytes then twoDecimals (toBinary53 bytes) 1048576 ++ " MB"
  else if 1024 ≤ bytes then twoDecimals (toBinary53 bytes) 1024 ++ " KB"
  else toString bytes ++ " B"

end EffectHandlers.ByteSize
