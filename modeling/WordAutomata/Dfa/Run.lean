import WordAutomata.Dfa.Basic
import WordAutomata.Log

/-!
# Runs of Deterministic Finite Automata

A run is in one state. A character for which that state has no rule is an
error, and the run stays where it was before the character: a word is read up
to the character that fails, and nothing of what follows is looked at.

## Main definitions

* `Dfa.Run`: The state after some word, with a log.
* `Dfa.Run.read`, `Dfa.Run.readWord`: Reading.
* `Dfa.accepts`: Whether the automaton accepts a word.
-/

universe u

namespace WordAutomata

namespace Dfa

/-- A run of an automaton. -/
structure Run (S : Type u) [Ordered S] where
  automaton : Dfa S
  /-- The state in which the automaton is. -/
  state : S
  log : Log

variable {S : Type u} [Ordered S]

/-- A run from a state. -/
def runFrom (a : Dfa S) (state : S) (log : Log) : Run S := ⟨a, state, log⟩

/-- A run from the start state. -/
def run (a : Dfa S) (log : Log) : Run S := a.runFrom a.start log

/-- The text of a step from one state to another. -/
def stepText [Describe S] (source : S) (c : Char) (target : S) : String :=
  describe source ++ " --[" ++ c.toString ++ "]-> " ++ describe target

namespace Run

/-- Whether the state is an accept state. -/
def isAccepting (run : Run S) : Bool := run.automaton.accepting.contains run.state

variable [Describe S]

/-- Reads a character. -/
def read (run : Run S) (c : Char) : Except (MissingRule S) (Run S) :=
  match run.automaton.rulebook.next run.state (.character c) with
  | .error e => .error e
  | .ok target =>
    .ok { run with
      state := target
      log := run.log.note .trace fun _ => stepText run.state c target }

/-- Reads a word, up to the first character without a rule. -/
def readWord (run : Run S) : List Char → Run S × Option (MissingRule S)
  | [] => (run, none)
  | c :: word =>
    match run.read c with
    | .error e => (run, some e)
    | .ok next => next.readWord word

end Run

variable [Describe S]

/-- Whether the automaton accepts a word, and the log of finding out. -/
def judge (a : Dfa S) (word : List Char) (log : Log) : Except (MissingRule S) Bool × Log :=
  match (a.run log).readWord word with
  | (run, none) => (.ok run.isAccepting, run.log)
  | (run, some e) => (.error e, run.log)

/-- Whether the automaton accepts a word. Fails if a character has no rule. -/
def accepts (a : Dfa S) (word : List Char) : Except (MissingRule S) Bool :=
  (a.judge word .silent).1

end Dfa

end WordAutomata
