import EffectHandlers.Random.ChaCha
import EffectHandlers.Word
/-!
# Random draws from a seed

A seed is stretched to a key, and the key gives a stream of words. An index below a bound is the
high half of a word times the bound; words whose low half lies beyond the last full share of the
bound are drawn again, so that no index is favoured.
-/

namespace EffectHandlers

/-- A stream of random words and the place up to which it was used. -/
structure Draws where
  key : List UInt32
  /-- How many double words have been drawn. -/
  position : Nat := 0
  deriving DecidableEq

namespace Draws

/-- The next state of the generator that stretches seeds. -/
def advance (s : UInt64) : UInt64 := s * 6364136223846793005 + 11634580027462260723

/-- The word that a state of that generator stands for. -/
def permute (s : UInt64) : UInt32 :=
  let word := (((s >>> 18) ^^^ s) >>> 27).toUInt32
  let turn := (s >>> 59).toUInt32
  (word >>> turn) ||| (word <<< ((32 - turn) % 32))

/-- The first words that a seed is stretched to. -/
def stretch (s : UInt64) : Nat → List UInt32
  | 0 => []
  | n + 1 => permute (advance s) :: stretch (advance s) n

/-- The stream of a seed. -/
def ofSeed (seed : Nat) : Draws := { key := stretch seed.toUInt64 8 }

/-- The next double word, its low half first in the stream. -/
def next (d : Draws) : Nat × Draws :=
  let words := ChaCha.block 6 d.key (d.position / 8)
  let i := d.position % 8 * 2
  ((words.getD i 0).toNat + (words.getD (i + 1) 0).toNat * ChaCha.wordCount,
    { d with position := d.position + 1 })

/-- The last low half that is accepted for a bound: the bound moved up until its top bit is that
of a double word, less one. -/
def lastAccepted (bound : Nat) : Nat := bound * Nat.pow 2 (63 - bound.log2) - 1

/-- An index below a positive bound, from the first acceptable word of the next `tries`. -/
def index (bound : Nat) : Nat → Draws → Nat × Draws
  | 0, d => (0, d)
  | tries + 1, d =>
    let (word, d) := d.next
    let product := word * bound
    if product % Word.count ≤ lastAccepted bound then (product / Word.count, d)
    else index bound tries d

/-- An index below a positive bound. At least half of all words are acceptable. -/
def below (bound : Nat) (d : Draws) : Nat × Draws := d.index bound 4096

end Draws

end EffectHandlers
