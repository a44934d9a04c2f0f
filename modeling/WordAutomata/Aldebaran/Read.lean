import WordAutomata.Aldebaran.Transition
import WordAutomata.Text.Lines
import WordAutomata.Nfa.Basic
import WordAutomata.Log

/-!
# Reading Aldebaran Files

A file holds a header and one line for each transition. Blank lines do not
count. The lines are taken one by one, each decoded when it is reached, and
the first fault ends the reading: nothing that follows it matters.

The number of transitions that the header announces need not be right. A
wrong one is only warned of.

## Main definitions

* `Aldebaran.Automaton`: What a file describes.
* `Aldebaran.splitHeader`: The header and the lines after it.
* `Aldebaran.readRules`: The rules on the lines, up to the first fault.
* `Aldebaran.read`: The automaton in a file.
-/

namespace WordAutomata

namespace Aldebaran

/-- The automaton in a file. The format knows no accept states. -/
structure Automaton where
  initial : StateIndex
  /-- How many states the header announces. All states are below this number. -/
  states : Nat
  rulebook : Nfa.Rulebook StateIndex

/-- The automaton with accept states. -/
def Automaton.toNfa (a : Automaton) (accepting : List StateIndex) : Nfa StateIndex :=
  ⟨a.initial, .ofList accepting, a.rulebook⟩

/-- The characters of a line. -/
def readLine (line : List UInt8) : Except ReadError (List Char) :=
  match Text.decodeLine? line with
  | some s => .ok s
  | none => .error .invalidText

/-- The first line that is not blank, and the lines after it. -/
def splitHeader : List (List UInt8) → Except ReadError (List Char × List (List UInt8))
  | [] => .error (.invalidHeader .missing)
  | line :: lines =>
    match readLine line with
    | .error e => .error e
    | .ok s => if Text.isBlankText s then splitHeader lines else .ok (s, lines)

/-- The rule on a line, unless the line is blank. -/
def readRule (states : Nat) (silent : List (List Char)) (line : List UInt8) :
    Except ReadError (Option (Finite.Rule StateIndex)) :=
  match readLine line with
  | .error e => .error e
  | .ok s =>
    if Text.isBlankText s then .ok none else (readTransition states silent s).map some

/-- The rules on the lines up to the first fault, and the fault, if there is
    one. The rules read before are held in reverse. -/
def readRules (states : Nat) (silent : List (List Char))
    (before : List (Finite.Rule StateIndex)) :
    List (List UInt8) → List (Finite.Rule StateIndex) × Option ReadError
  | [] => (before.reverse, none)
  | line :: lines =>
    match readRule states silent line with
    | .error e => (before.reverse, some e)
    | .ok none => readRules states silent before lines
    | .ok (some r) => readRules states silent (r :: before) lines

/-- The header of a file and the lines after it. -/
def readHead (lines : List (List UInt8)) : Except ReadError (Header × List (List UInt8)) := do
  let (line, rest) ← splitHeader lines
  let header ← readHeader line
  return (header, rest)

/-- The text of a rule that was read. -/
def ruleText (r : Finite.Rule StateIndex) : String := "Read transition " ++ describe r

/-- The warning that the header announces a wrong number of transitions. -/
def countText (announced found : Nat) : String :=
  "The header announces " ++ describe announced ++ " transitions, but " ++ describe found ++
    " were read"

/-- Reads a file, given the labels that are silent, with a log of what was read. -/
def readNoting (silent : List (List Char)) (bytes : List UInt8) (log : Log) :
    Except ReadError Automaton × Log :=
  let log := log.note .info fun _ => "Reading automaton in .aut format..."
  match readHead (Text.byteLines bytes) with
  | .error e => (.error e, log)
  | .ok (header, lines) =>
    let (rules, fault) := readRules header.states silent [] lines
    let log := log.noteEach .trace ruleText rules
    match fault with
    | some e => (.error e, log)
    | none =>
      let log :=
        if rules.length = header.transitions then log
        else log.note .warn fun _ => countText header.transitions rules.length
      (.ok ⟨⟨header.initial⟩, header.states, .ofRules rules⟩,
        log.note .info fun _ => "Finished reading automaton")

/-- Reads a file, given the labels that are silent. -/
def read (silent : List (List Char)) (bytes : List UInt8) : Except ReadError Automaton :=
  (readNoting silent bytes .silent).1

end Aldebaran

end WordAutomata
