import WordAutomata.Aldebaran.Error
import WordAutomata.Dfa.Basic
import WordAutomata.Log

/-!
# Writing Aldebaran Files

The text of a deterministic automaton whose states are numbers: a header, and
a line for each rule with its label between quotes. The accept states are not
part of the format. The number of states in the header bounds all states only
if they are numbered without gaps, as renumbering does.

## Main definitions

* `Aldebaran.text`: The text of an automaton.
* `Aldebaran.write`: Writing where there may be limited room.
-/

namespace WordAutomata

namespace Aldebaran

/-- The text between the parentheses of a line, with commas in between. -/
def tuple (first second third : String) : String :=
  "(" ++ first ++ ", " ++ second ++ ", " ++ third ++ ")\n"

/-- The label of a rule, without its quotes. -/
def labelText : Symbol → String
  | .epsilon => "tau"
  | .character c => c.toString

/-- The line of a rule. -/
def ruleLine (r : Finite.Rule StateIndex) : String :=
  tuple (describe r.source) ("\"" ++ labelText r.symbol ++ "\"") (describe r.target)

/-- The text of an automaton. -/
def text (a : Dfa StateIndex) : String :=
  "des " ++ tuple (describe a.start) (describe a.rulebook.rules.length) (describe a.states.size) ++
    String.join (a.rulebook.rules.map ruleLine)

/-- Writes an automaton where there is room for the given number of bytes, or
    for any number. Only a text that fits was written, and is noted in the log. -/
def write (room : Option Nat) (a : Dfa StateIndex) (log : Log) :
    Except WriteError String × Log :=
  let text := text a
  if room.all fun n => text.utf8ByteSize ≤ n then
    (.ok text, log.note .info fun _ =>
      "Wrote " ++ describe a.rulebook.rules.length ++ " transitions, accept states " ++
        describe a.accepting)
  else (.error .noRoom, log)

end Aldebaran

end WordAutomata
