import WordAutomata.Nfa.Basic
import WordAutomata.Log

/-!
# Runs of Nondeterministic Finite Automata

A run holds the set of states in which the automaton can be. The set is
closed under epsilon rules from the start on, and reading keeps it so. A
character for which no state has a rule leaves the empty set, and the run goes
on: it has no errors.

Each character read is traced in the log of the run.

## Main definitions

* `Nfa.Run`: The states after some word, with a log.
* `Nfa.Run.read`, `Nfa.Run.readWord`: Reading.
* `Nfa.accepts`: Whether the automaton accepts a word.

## Theorems

* `Nfa.Run.states_readWord`: What a word does to the states, the log aside.
-/

universe u

namespace WordAutomata

namespace Nfa

/-- A run of an automaton. -/
structure Run (S : Type u) [Ordered S] where
  automaton : Nfa S
  /-- The states in which the automaton can be. -/
  states : SortedSet S
  log : Log

variable {S : Type u} [Ordered S]

/-- A run from some states, and from what epsilon rules reach from them. -/
def runFrom (a : Nfa S) (states : SortedSet S) (log : Log) : Run S :=
  ⟨a, a.rulebook.closure states, log⟩

/-- A run from the start state. -/
def run (a : Nfa S) (log : Log) : Run S := a.runFrom (.singleton a.start) log

/-- The text of a step that ends in the given states. -/
def stepText [Describe S] (c : Char) (states : SortedSet S) : String :=
  "--[" ++ c.toString ++ "]-> " ++ describe states

namespace Run

variable [Describe S]

/-- Reads a character. -/
def read (run : Run S) (c : Char) : Run S :=
  let states := run.automaton.rulebook.next run.states c
  { run with states, log := run.log.note .trace fun _ => stepText c states }

/-- Reads a word. -/
def readWord (run : Run S) (word : List Char) : Run S := word.foldl read run

omit [Describe S] in
/-- Whether one of the states is an accept state. -/
def isAccepting (run : Run S) : Bool := run.automaton.isAccepting run.states

theorem automaton_readWord {run : Run S} {word : List Char} :
    (run.readWord word).automaton = run.automaton := by
  induction word generalizing run with
  | nil => rfl
  | cons c word ih => exact ih

theorem states_readWord {run : Run S} {word : List Char} :
    (run.readWord word).states = word.foldl run.automaton.rulebook.next run.states := by
  induction word generalizing run with
  | nil => rfl
  | cons c word ih => exact ih

end Run

variable [Describe S]

/-- Whether the automaton accepts a word, and the log of finding out. -/
def judge (a : Nfa S) (word : List Char) (log : Log) : Bool × Log :=
  let run := (a.run log).readWord word
  (run.isAccepting, run.log)

/-- Whether the automaton accepts a word. -/
def accepts (a : Nfa S) (word : List Char) : Bool := (a.judge word .silent).1

end Nfa

end WordAutomata
