import WordAutomata.Random.Source
import WordAutomata.Nfa.Basic

/-!
# Random Automata

A nondeterministic automaton of a given size whose rules are drawn at random.
State zero is the start state. About one rule in four is an epsilon rule, and
about three states in ten accept.

## Main definitions

* `Random.Refusal`: Why no automaton is made.
* `Random.nfa`: A random automaton.
-/

namespace WordAutomata

namespace Random

/-- Why no automaton is made. -/
inductive Refusal where
  /-- There are more characters than lower case letters. -/
  | tooManyCharacters
  /-- There is no state to start in. -/
  | noStates
deriving DecidableEq

def Refusal.message : Refusal → String
  | tooManyCharacters => "Too many characters requested, we only support lower case letters."
  | noStates => "A design needs at least the start state"

/-- Epsilon, or one of the first letters. Without letters nothing is drawn. -/
def symbol (characters : Nat) : Random Symbol := do
  if characters = 0 then return .epsilon
  else if ← chance oneInFour then return .epsilon
  else return .character (← letter characters)

/-- A rule from a state. -/
def ruleFrom (states characters source : Nat) : Random (Finite.Rule StateIndex) := do
  let symbol ← symbol characters
  let target ← below states
  return ⟨⟨source⟩, symbol, ⟨target⟩⟩

/-- The rules from a state, at most as many as the given number. -/
def rulesFrom (states characters outdegree source : Nat) :
    Random (List (Finite.Rule StateIndex)) := do
  let count ← below (outdegree + 1)
  (List.range count).mapM fun _ => ruleFrom states characters source

/-- An automaton with the given numbers of states and characters. -/
def nfa (states characters outdegree : Nat) : Random (Except Refusal (Nfa StateIndex)) := do
  if 26 < characters then return .error .tooManyCharacters
  else if states = 0 then return .error .noStates
  else
    let rules ← (List.range states).mapM (rulesFrom states characters outdegree)
    let accepting ← (List.range states).filterM fun _ => chance threeInTen
    return .ok ⟨⟨0⟩, .ofList (accepting.map Index.mk), .ofRules rules.flatten⟩

end Random

end WordAutomata
