import WordAutomata.Text.Natural
import WordAutomata.Text.Quoted

/-!
# Faults of Aldebaran Files

Why a file in the Aldebaran format cannot be read, or an automaton not be
written.

## Main definitions

* `Aldebaran.ReadError`: The faults of a file.
* `Aldebaran.WriteError`: The faults of writing.
-/

namespace WordAutomata

namespace Aldebaran

/-- What is wrong with a header. -/
inductive HeaderFault where
  /-- The file has no line but blank ones. -/
  | missing
  /-- The line does not have the form of a header. -/
  | malformed
  /-- The initial state is not below the number of states. -/
  | initialOutOfRange
deriving DecidableEq

def HeaderFault.message : HeaderFault → String
  | missing => "The first line should be the header"
  | malformed => "does not match des (<init>, <num_of_transitions>, <num_of_states>)"
  | initialOutOfRange => "the initial state is not one of the states"

/-- Why a file cannot be read. -/
inductive ReadError where
  | invalidHeader (fault : HeaderFault)
  /-- A line does not have the form of a transition, or a state on it is not
      below the number of states. -/
  | invalidTransition (line : List Char)
  /-- A label is neither silent nor a single character. -/
  | invalidLabel (label : List Char)
  | invalidNumber (fault : NumberError)
  /-- A line is not valid UTF-8. -/
  | invalidText
deriving DecidableEq

/-- The fault of a line that is not valid UTF-8. -/
def invalidTextMessage : String := "stream did not contain valid UTF-8"

def ReadError.message : ReadError → String
  | invalidHeader fault => "Invalid .aut header " ++ fault.message
  | invalidTransition line => "Invalid transition " ++ String.ofList line
  | invalidLabel label => "Invalid label " ++ Text.quoted (String.ofList label) ++
      ", labels must be a single character or an epsilon label"
  | invalidNumber fault => fault.message
  | invalidText => invalidTextMessage

/-- Why an automaton cannot be written. -/
inductive WriteError where
  /-- There is no room for all of the text. -/
  | noRoom
deriving DecidableEq

def WriteError.message : WriteError → String
  | noRoom => "failed to write the buffered data"

end Aldebaran

end WordAutomata
