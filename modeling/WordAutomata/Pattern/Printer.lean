import WordAutomata.Pattern.Basic

/-!
# Printing Patterns

A pattern in the usual notation: a bar between choices, a star after what is
repeated, and nothing between patterns in a row. An operand stands between
parentheses if its operator binds weaker than the one around it. Operands that
bind as strongly stand as they are on either side, so how patterns in a row
were grouped is not seen. The empty pattern is printed as nothing.

## Main definitions

* `Pattern.precedence`: How strongly the operator of a pattern binds.
* `Pattern.text`: A pattern in writing.
-/

namespace WordAutomata

namespace Pattern

/-- How strongly the operator of a pattern binds. -/
def precedence : Pattern → Nat
  | choose _ _ => 0
  | concatenate _ _ => 1
  | repeated _ => 2
  | empty => 3
  | literal _ => 3

/-- The text of an operand, between parentheses if it binds weaker than the
    operator around it. -/
def bracketed (outer : Nat) (operand : Pattern) (text : List Char) : List Char :=
  if operand.precedence < outer then '(' :: text ++ [')'] else text

/-- The pattern in writing. -/
def text : Pattern → List Char
  | empty => []
  | literal c => [c]
  | concatenate p q => bracketed 1 p p.text ++ bracketed 1 q q.text
  | choose p q => bracketed 0 p p.text ++ '|' :: bracketed 0 q q.text
  | repeated p => bracketed 2 p p.text ++ ['*']

/-- The pattern in writing, between slashes. -/
def slashed (p : Pattern) : String := "/" ++ String.ofList p.text ++ "/"

end Pattern

end WordAutomata
