import WordAutomata.Nfa.Run
import WordAutomata.Dfa.Run
import WordAutomata.Npda.Run
import WordAutomata.Dpda.Run

/-!
# Automata of Any Kind

The four kinds of automata behind one question: does it accept a word? Only a
deterministic finite automaton can fail to answer, where it has no rule for a
character.

## Main definitions

* `Design`: An automaton of any kind.
* `Design.judge`, `Design.accepts`: Whether it accepts a word.
-/

universe u

namespace WordAutomata

/-- An automaton of any kind. -/
inductive Design (S : Type u) [Ordered S] where
  | dfa (a : Dfa S)
  | nfa (a : Nfa S)
  | dpda (a : Dpda S)
  | npda (a : Npda S)

namespace Design

variable {S : Type u} [Ordered S]

def isDeterministic : Design S → Bool
  | dfa _ => true
  | dpda _ => true
  | nfa _ => false
  | npda _ => false

variable [Describe S]

/-- Whether the automaton accepts a word, and the log of finding out. -/
def judge (design : Design S) (word : List Char) (log : Log) :
    Except (MissingRule S) Bool × Log :=
  match design with
  | dfa a => a.judge word log
  | nfa a => (a.judge word log).map .ok id
  | dpda a => (a.judge word log).map .ok id
  | npda a => (a.judge word log).map .ok id

/-- Whether the automaton accepts a word. -/
def accepts (design : Design S) (word : List Char) : Except (MissingRule S) Bool :=
  (design.judge word .silent).1

end Design

end WordAutomata
