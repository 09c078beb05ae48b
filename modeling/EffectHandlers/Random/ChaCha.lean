/-!
# The ChaCha key stream

A key of eight words gives an endless stream of words, cut into blocks of sixteen. Block `n` is
made from the key and the number `n` alone, so any place of the stream can be computed at once.
-/

namespace EffectHandlers.ChaCha

/-- How many words there are: 2³². -/
def wordCount : Nat := 4294967296

/-- Sixteen words. -/
abbrev State := Array UInt32

/-- Turn the bits of a word left. -/
def rotate (w : UInt32) (n : UInt32) : UInt32 := (w <<< n) ||| (w >>> (32 - n))

/-- Add the word at `b` to the one at `a`, mix the sum into the one at `d` and turn that. -/
def mix (s : State) (a b d : Nat) (turn : UInt32) : State :=
  let sum := s.getD a 0 + s.getD b 0
  (s.setIfInBounds a sum).setIfInBounds d (rotate (s.getD d 0 ^^^ sum) turn)

/-- Mix four words of the state. -/
def quarterRound (s : State) (a b c d : Nat) : State :=
  mix (mix (mix (mix s a b d 16) c d b 12) a b d 8) c d b 7

/-- One round down the columns and one along the diagonals. -/
def doubleRound (s : State) : State :=
  let s := quarterRound s 0 4 8 12
  let s := quarterRound s 1 5 9 13
  let s := quarterRound s 2 6 10 14
  let s := quarterRound s 3 7 11 15
  let s := quarterRound s 0 5 10 15
  let s := quarterRound s 1 6 11 12
  let s := quarterRound s 2 7 8 13
  quarterRound s 3 4 9 14

/-- The state a block starts from: four constants, the key, the number of the block, two zeros. -/
def start (key : List UInt32) (block : Nat) : State :=
  let constants : List UInt32 := [0x61707865, 0x3320646e, 0x79622d32, 0x6b206574]
  (constants ++ key ++ [block.toUInt32, (block / wordCount).toUInt32, 0, 0]).toArray

/-- A block of the stream, after so many double rounds. -/
def block (doubleRounds : Nat) (key : List UInt32) (n : Nat) : State :=
  let s := start key n
  Array.zipWith (· + ·) (Nat.repeat doubleRound doubleRounds s) s

end EffectHandlers.ChaCha
