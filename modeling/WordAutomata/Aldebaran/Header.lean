import WordAutomata.Aldebaran.Error
import WordAutomata.Text.Blank

/-!
# Headers of Aldebaran Files

The header announces the initial state, the number of transitions and the
number of states: `des (<initial>, <transitions>, <states>)`, with white space
allowed around the parentheses, the numbers and the commas. It may stand
anywhere in its line, and the first place where it fits counts.

The digits of a number may be missing. That fits the form of a header and is
then a fault of the number.

## Main definitions

* `Aldebaran.Header`: The three numbers.
* `Aldebaran.matchHeader?`: The digits of a header at the start of a text.
* `Aldebaran.findHeader?`: The digits of the first header in a text.
* `Aldebaran.readHeader`: The numbers of the header in a line.
-/

namespace WordAutomata

namespace Aldebaran

/-- What the header of a file announces. -/
structure Header where
  initial : Nat
  transitions : Nat
  states : Nat

/-- What follows a text at the start of another one. -/
def after? : List Char → List Char → Option (List Char)
  | [], s => some s
  | _ :: _, [] => none
  | c :: text, d :: s => if c = d then after? text s else none

/-- What follows a mark at the start of a text, white space before and after it
    left out. -/
def afterMark? (mark : List Char) (s : List Char) : Option (List Char) :=
  (after? mark (Text.trimLeft s)).map Text.trimLeft

/-- The digits at the start of a text, and what follows them. -/
def spanDigits (s : List Char) : List Char × List Char := s.span Text.isDigit

/-- The digits of the three numbers of a header at the start of a text. -/
def matchHeader? (s : List Char) : Option (List Char × List Char × List Char) := do
  let s ← after? ['d', 'e', 's'] s
  let s ← afterMark? ['('] s
  let (initial, s) := spanDigits s
  let s ← afterMark? [','] s
  let (transitions, s) := spanDigits s
  let s ← afterMark? [','] s
  let (states, s) := spanDigits s
  let _ ← afterMark? [')'] s
  return (initial, transitions, states)

/-- The digits of the first header in a text. -/
def findHeader? (s : List Char) : Option (List Char × List Char × List Char) :=
  match matchHeader? s with
  | some found => some found
  | none =>
    match s with
    | [] => none
    | _ :: s => findHeader? s

/-- A number of a file, whose faults are faults of the file. -/
def readNumber (s : List Char) : Except ReadError Nat :=
  (Text.readNatural s).mapError .invalidNumber

/-- The header in a line. -/
def readHeader (line : List Char) : Except ReadError Header :=
  match findHeader? line with
  | none => .error (.invalidHeader .malformed)
  | some (initial, transitions, states) => do
    let initial ← readNumber initial
    let transitions ← readNumber transitions
    let states ← readNumber states
    if initial < states then return ⟨initial, transitions, states⟩
    else throw (.invalidHeader .initialOutOfRange)

end Aldebaran

end WordAutomata
