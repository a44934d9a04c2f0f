/-!
# Patterns

Regular expressions without the empty language: the empty word, single
characters, and three ways to combine patterns. `Matches` says which words a
pattern stands for. It mentions no automaton, and is what the automaton made
from a pattern has to answer to.

## Main definitions

* `Pattern`: Regular expressions.
* `Pattern.Matches`: The words of a pattern.
* `Pattern.literals`: The characters in a pattern.
-/

namespace WordAutomata

/-- A regular expression. -/
inductive Pattern where
  /-- Only the empty word. -/
  | empty
  /-- Only this character. -/
  | literal (c : Char)
  /-- A word of the first pattern and then one of the second. -/
  | concatenate (first second : Pattern)
  /-- A word of either pattern. -/
  | choose (first second : Pattern)
  /-- Any number of words of the pattern, one after the other. -/
  | repeated (inner : Pattern)
deriving DecidableEq

namespace Pattern

/-- The words that a pattern stands for. -/
inductive Matches : Pattern → List Char → Prop
  | empty : Matches empty []
  | literal (c : Char) : Matches (literal c) [c]
  | concatenate {p q : Pattern} {v w : List Char} :
      Matches p v → Matches q w → Matches (concatenate p q) (v ++ w)
  | chooseFirst {p q : Pattern} {w : List Char} : Matches p w → Matches (choose p q) w
  | chooseSecond {p q : Pattern} {w : List Char} : Matches q w → Matches (choose p q) w
  | repeatNone {p : Pattern} : Matches (repeated p) []
  | repeatMore {p : Pattern} {v w : List Char} :
      Matches p v → Matches (repeated p) w → Matches (repeated p) (v ++ w)

/-- The characters in a pattern, in order. -/
def literals : Pattern → List Char
  | empty => []
  | literal c => [c]
  | concatenate p q => p.literals ++ q.literals
  | choose p q => p.literals ++ q.literals
  | repeated p => p.literals

end Pattern

end WordAutomata
