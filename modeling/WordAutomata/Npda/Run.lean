import WordAutomata.Npda.Basic
import WordAutomata.Log

/-!
# Runs of Nondeterministic Pushdown Automata

A run holds the set of configurations in which the automaton can be, closed
under epsilon rules as far as they are followed. Configurations without a rule
for a character drop out of the set, and the run goes on.

A closure that had to be truncated leaves a warning. How tall configurations
may get is found anew for each closure, from the tallest one at hand.

## Main definitions

* `Npda.Run`: The configurations after some word, with a log.
* `Npda.Run.read`, `Npda.Run.readWord`: Reading.
* `Npda.accepts`: Whether the automaton accepts a word.
-/

universe u

namespace WordAutomata

namespace Npda

/-- A run of an automaton. -/
structure Run (S : Type u) [Ordered S] where
  automaton : Npda S
  /-- The configurations in which the automaton can be. -/
  configurations : SortedSet (Configuration S)
  log : Log

variable {S : Type u} [Ordered S]

/-- The warning that a closure was truncated at some height. -/
def truncationText (limit : Nat) : String :=
  "Epsilon rules grow the stack beyond " ++ describe limit ++
    " symbols, the epsilon-closure is infinite and has been truncated"

/-- Warns if a closure was truncated. -/
def noteClosure (closure : Closure S) (log : Log) : Log :=
  if closure.truncated then log.note .warn fun _ => truncationText closure.limit else log

/-- The epsilon closure of a set, with a warning if it was truncated. -/
def Rulebook.closureNoting (b : Rulebook S) (configurations : SortedSet (Configuration S))
    (log : Log) : SortedSet (Configuration S) × Log :=
  let closure := b.closure configurations
  (closure.configurations, noteClosure closure log)

/-- A run from some configurations, and from what epsilon rules reach from them. -/
def runFrom (a : Npda S) (configurations : SortedSet (Configuration S)) (log : Log) : Run S :=
  let (configurations, log) := a.rulebook.closureNoting configurations log
  ⟨a, configurations, log⟩

/-- A run from the start configuration. -/
def run (a : Npda S) (log : Log) : Run S := a.runFrom (.singleton a.startConfiguration) log

/-- The text of a step that ends in the given configurations. -/
def stepText [Describe S] (c : Char) (configurations : SortedSet (Configuration S)) : String :=
  "--[" ++ c.toString ++ "]-> " ++ describe configurations

namespace Run

/-- Whether the state of one of the configurations is an accept state. -/
def isAccepting (run : Run S) : Bool := run.automaton.isAccepting run.configurations

variable [Describe S]

/-- Reads a character. -/
def read (run : Run S) (c : Char) : Run S :=
  let stepped := run.automaton.rulebook.step run.configurations (.character c)
  let next := run.automaton.runFrom stepped run.log
  { next with log := next.log.note .trace fun _ => stepText c next.configurations }

/-- Reads a word. -/
def readWord (run : Run S) (word : List Char) : Run S := word.foldl read run

end Run

variable [Describe S]

/-- Whether the automaton accepts a word, and the log of finding out. -/
def judge (a : Npda S) (word : List Char) (log : Log) : Bool × Log :=
  let run := (a.run log).readWord word
  (run.isAccepting, run.log)

/-- Whether the automaton accepts a word. -/
def accepts (a : Npda S) (word : List Char) : Bool := (a.judge word .silent).1

end Npda

end WordAutomata
