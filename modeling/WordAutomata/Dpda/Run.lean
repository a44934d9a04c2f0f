import WordAutomata.Dpda.FreeMoves
import WordAutomata.Log

/-!
# Runs of Deterministic Pushdown Automata

A run is in one configuration, to which no epsilon rule applies. Reading a
character for which there is no rule leaves the run stuck, and so does an
endless run of epsilon rules. A stuck run ignores all that follows, keeps its
stack, and never accepts.

## Main definitions

* `Dpda.Run`: The configuration after some word, with a log.
* `Dpda.Run.read`, `Dpda.Run.readWord`: Reading.
* `Dpda.accepts`: Whether the automaton accepts a word.
-/

universe u

namespace WordAutomata

namespace Dpda

/-- A run of an automaton. -/
structure Run (S : Type u) [Ordered S] where
  automaton : Dpda S
  /-- The configuration in which the automaton is. -/
  configuration : Configuration S
  log : Log

variable {S : Type u} [Ordered S]

/-- The text of a step that ends in a configuration. -/
def stepText [Describe S] (symbol : Symbol) (c : Configuration S) : String :=
  "--[" ++ symbol.text ++ "]-> " ++ describe c

/-- The warning that an epsilon rule repeats. -/
def cycleText [Describe S] (r : Pushdown.Rule S) : String :=
  "The epsilon rule " ++ describe r ++
    " repeats without shrinking the stack, the rulebook contains an epsilon cycle"

/-- Traces the configurations on the way of an epsilon run, and warns if the run
    is endless. -/
def noteFreeRun [Describe S] (b : Rulebook S) (c : Configuration S) (run : FreeRun S) (log : Log) :
    Log :=
  let traced :=
    if log.keeps .trace then log.noteEach .trace (stepText .epsilon) (b.freePath c run.moves)
    else log
  match run.cycle? with
  | none => traced
  | some r => traced.note .warn fun _ => cycleText r

variable [Describe S]

/-- Follows epsilon rules, with a log of them. -/
def Rulebook.freeMovesNoting (b : Rulebook S) (c : Configuration S) (log : Log) :
    Configuration S × Log :=
  let run := b.freeRun c
  (run.final, noteFreeRun b c run log)

/-- A run from where epsilon rules lead from a configuration. -/
def runFrom (a : Dpda S) (c : Configuration S) (log : Log) : Run S :=
  let (configuration, log) := a.rulebook.freeMovesNoting c log
  ⟨a, configuration, log⟩

/-- A run from the start configuration. -/
def run (a : Dpda S) (log : Log) : Run S := a.runFrom a.start log

namespace Run

omit [Describe S] in
def isStuck (run : Run S) : Bool := run.configuration.isStuck

omit [Describe S] in
/-- Whether the state is an accept state. -/
def isAccepting (run : Run S) : Bool := run.configuration.isIn run.automaton.accepting

/-- The configuration right after a character, before epsilon rules are
    followed. It is stuck if there is no rule for the character. -/
def afterCharacter (run : Run S) (c : Char) : Configuration S × Log :=
  match run.automaton.rulebook.next run.configuration (.character c) with
  | .ok next => (next, run.log)
  | .error e => (run.configuration.stuck, run.log.note .trace fun _ => e.message)

/-- Reads a character. A stuck run stays as it is. -/
def read (run : Run S) (c : Char) : Run S :=
  if run.isStuck then run
  else
    let (next, log) := run.afterCharacter c
    run.automaton.runFrom next (log.note .trace fun _ => stepText (.character c) next)

/-- Reads a word, until the run is stuck. -/
def readWord (run : Run S) : List Char → Run S
  | [] => run
  | c :: word => if run.isStuck then run else (run.read c).readWord word

end Run

/-- Whether the automaton accepts a word, and the log of finding out. -/
def judge (a : Dpda S) (word : List Char) (log : Log) : Bool × Log :=
  let run := (a.run log).readWord word
  (run.isAccepting, run.log)

/-- Whether the automaton accepts a word. -/
def accepts (a : Dpda S) (word : List Char) : Bool := (a.judge word .silent).1

end Dpda

end WordAutomata
