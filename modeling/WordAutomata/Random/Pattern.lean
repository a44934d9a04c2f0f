import WordAutomata.Random.Source
import WordAutomata.Pattern.Basic

/-!
# Random Patterns

A pattern of at most a given depth over the first lower case letters, drawn
at random. At depth zero, and now and then above it, there is a leaf, which is
seldom the empty pattern.

## Main definitions

* `Random.pattern`: A random pattern.
-/

namespace WordAutomata

namespace Random

/-- The empty pattern or a literal. -/
def leaf (characters : Nat) : Random Pattern := do
  if ← chance oneInTen then return .empty
  else return .literal (← letter characters)

/-- A pattern of at most the given depth. -/
def patternOfDepth (characters : Nat) : Nat → Random Pattern
  | 0 => leaf characters
  | depth + 1 => do
    if ← chance oneInFive then leaf characters
    else
      let operator ← below 3
      let first ← patternOfDepth characters depth
      if operator = 0 then return .concatenate first (← patternOfDepth characters depth)
      else if operator = 1 then return .choose first (← patternOfDepth characters depth)
      else return .repeated first

/-- There have to be between one and all of the lower case letters. -/
def alphabetMessage : String := "We only support between one and 26 lower case letters."

/-- A pattern of at most the given depth over the first letters, unless their
    number is out of range. -/
def pattern (depth characters : Nat) : Random (Except String Pattern) := do
  if 1 ≤ characters ∧ characters ≤ 26 then return .ok (← patternOfDepth characters depth)
  else return .error alphabetMessage

end Random

end WordAutomata
