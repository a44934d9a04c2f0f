/-!
# Random Draws

Random choices as functions of a source of random words. A source hands out
the words it was given, over and over, and counts them, so a choice can be
repeated and its cost is seen.

A chance compares a word with a threshold. A choice among several numbers
multiplies half a word by their count and takes the upper half of the product;
where the lower half is so large that the words yet to come would matter, a
second one is drawn to settle the carry.

## Main definitions

* `RandomSource`: Words, and how many were drawn.
* `Random`: Choices that draw from a source.
* `Random.chance`, `Random.below`: The two kinds of choice.
-/

namespace WordAutomata

/-- A source of random words. -/
structure RandomSource where
  /-- The words, which are handed out in order and then from the start again. -/
  words : Array Nat
  /-- How many words were drawn. -/
  drawn : Nat

/-- A choice that draws words from a source. -/
abbrev Random := StateM RandomSource

namespace Random

/-- Draws a word of 64 bits. -/
def word : Random Nat := fun source =>
  (source.words.getD (source.drawn % source.words.size) 0 % UInt64.size,
    { source with drawn := source.drawn + 1 })

/-- Draws a word of 32 bits, the lower half of one of 64 bits. -/
def halfWord : Random Nat := do return (← word) % UInt32.size

/-- Whether a word is below a threshold. -/
def chance (threshold : Nat) : Random Bool := do return (← word) < threshold

/-- One of the numbers below a count. -/
def below (count : Nat) : Random Nat := do
  let product := (← halfWord) * count
  let high := product / UInt32.size
  let low := product % UInt32.size
  if low > UInt32.size - count then
    let more := (← halfWord) * count / UInt32.size
    return if low + more ≥ UInt32.size then high + 1 else high
  else return high

/-- One of the first lower case letters. -/
def letter (count : Nat) : Random Char := do return Char.ofNat ('a'.toNat + (← below count))

/-- The threshold of a chance of one in ten. -/
def oneInTen : Nat := 1844674407370955264

/-- The threshold of a chance of one in five. -/
def oneInFive : Nat := 3689348814741910528

/-- The threshold of a chance of one in four. -/
def oneInFour : Nat := 4611686018427387904

/-- The threshold of a chance of three in ten. -/
def threeInTen : Nat := 5534023222112865280

end Random

end WordAutomata
