import WordAutomata.Pattern.Printer
import WordAutomata.Pattern.Thompson
import WordAutomata.Nfa.Determinize
import WordAutomata.Dfa.Renumber

/-!
# Matching Words Against Patterns

A pattern matches a word if its automaton accepts the word. The deterministic
automaton of a pattern has the sets of these states as its states, numbered in
the order in which they are met.

## Main definitions

* `Pattern.toNfa`: The automaton of a pattern.
* `Pattern.toDfa`: Its deterministic automaton.
* `Pattern.accepts`: Whether a pattern matches a word.
-/

namespace WordAutomata

namespace Pattern

/-- The automaton of a pattern. -/
def toNfa (p : Pattern) : Nfa StateIndex :=
  let fragment := (p.compile .fresh).1
  ⟨fragment.start, .ofList fragment.accepting, .ofRules fragment.rules.toList⟩

/-- The deterministic automaton of a pattern. -/
def toDfa (p : Pattern) : Dfa StateIndex := p.toNfa.determinize.renumber

/-- Whether the pattern matches a whole word. -/
def accepts (p : Pattern) (word : List Char) : Bool := p.toNfa.accepts word

/-! ## Log -/

/-- The text of a compilation. -/
def compiledText (p : Pattern) (states rules : Nat) : String :=
  "Compiled " ++ p.slashed ++ " into " ++ describe states ++ " states and " ++ describe rules ++
    " rules"

/-- Compiles a pattern, with a record of the size of its automaton. -/
def toNfaNoting (p : Pattern) (log : Log) : Nfa StateIndex × Log :=
  let (fragment, supply) := p.compile .fresh
  (⟨fragment.start, .ofList fragment.accepting, .ofRules fragment.rules.toList⟩,
    log.note .debug fun _ => compiledText p supply.next fragment.rules.size)

theorem toNfaNoting_fst {p : Pattern} {log : Log} : (p.toNfaNoting log).1 = p.toNfa := rfl

/-- Compiles and determinizes a pattern, with the records of both. -/
def toDfaNoting (p : Pattern) (elapsed : Duration) (log : Log) : Dfa StateIndex × Log :=
  let (a, log) := p.toNfaNoting log
  let (d, log) := a.determinizeNoting elapsed log
  (d.renumber, log)

/-- Whether the pattern matches a word, and the log of finding out. -/
def judge (p : Pattern) (word : List Char) (log : Log) : Bool × Log :=
  let (a, log) := p.toNfaNoting log
  a.judge word log

end Pattern

end WordAutomata
