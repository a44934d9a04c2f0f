import WordAutomata.Aldebaran.Header
import WordAutomata.Finite.Rule

/-!
# Transitions of Aldebaran Files

A transition is a line `(<source>, <label>, <target>)`. The label may stand
between quotes, and may itself be a comma, a quote or a parenthesis, so the
three fields are found from the outside in: the source ends at the first
comma, the target begins after the last one, and the label is what lies in
between. White space around a field does not count, and a label that is white
space has to be quoted.

The label `tau` and those named as silent stand for epsilon. All other labels
are single characters.

## Main definitions

* `Aldebaran.fields?`: The three fields of a line.
* `Aldebaran.readLabel`: The symbol that a label stands for.
* `Aldebaran.readTransition`: The rule on a line.
-/

namespace WordAutomata

namespace Aldebaran

/-- The place of the first occurrence of a character. -/
def firstPlace? (c : Char) (s : List Char) : Option Nat := s.idxOf? c

/-- The place of the last occurrence of a character. -/
def lastPlace? (c : Char) (s : List Char) : Option Nat :=
  (s.reverse.idxOf? c).map fun i => s.length - 1 - i

/-- The part of a text from one place up to, and not including, another, unless
    the second place comes before the first. -/
def between? (s : List Char) (first last : Nat) : Option (List Char) :=
  if first ≤ last then some ((s.take last).drop first) else none

/-- A label without the quotes around it. -/
def unquote (label : List Char) : List Char :=
  if 2 ≤ label.length && label.head? = some '"' && label.getLast? = some '"' then
    label.tail.dropLast
  else label

/-- The source, the label and the target on a line. -/
def fields? (line : List Char) : Option (List Char × List Char × List Char) := do
  let opening ← firstPlace? '(' line
  let comma ← firstPlace? ',' line
  let lastComma ← lastPlace? ',' line
  let closing ← lastPlace? ')' line
  let source ← between? line (opening + 1) comma
  let label ← between? line (comma + 1) lastComma
  let target ← between? line (lastComma + 1) closing
  return (Text.trim source, unquote (Text.trim label), Text.trim target)

/-- The label that always stands for epsilon. -/
def tau : List Char := ['t', 'a', 'u']

/-- The symbol that a label stands for, given the labels that are silent. -/
def readLabel (silent : List (List Char)) (label : List Char) : Except ReadError Symbol :=
  if label = tau || label ∈ silent then .ok .epsilon
  else
    match label with
    | [c] => .ok (.character c)
    | _ => .error (.invalidLabel label)

/-- The rule on a line of a file with the given number of states. -/
def readTransition (states : Nat) (silent : List (List Char)) (line : List Char) :
    Except ReadError (Finite.Rule StateIndex) :=
  match fields? line with
  | none => .error (.invalidTransition line)
  | some (source, label, target) => do
    let source ← readNumber source
    let target ← readNumber target
    if source < states && target < states then
      let symbol ← readLabel silent label
      return ⟨⟨source⟩, symbol, ⟨target⟩⟩
    else throw (.invalidTransition line)

end Aldebaran

end WordAutomata
