import WordAutomata.Pattern.Basic
import WordAutomata.Finite.Rule

/-!
# Automata for Patterns

Thompson's construction. Each part of a pattern becomes a fragment of an
automaton with states of its own, which a supply hands out one after the
other. A larger pattern joins the fragments of its parts by epsilon rules and
leaves their own rules as they are.

Accept states may keep rules that lead on. The start state of a repetition is
new, and never entered again.

## Main definitions

* `StateSupply`: The next state that was not yet handed out.
* `Fragment`: Rules with a start state and accept states.
* `Pattern.compile`: The fragment of a pattern.
-/

namespace WordAutomata

/-- Hands out states, no state twice. -/
structure StateSupply where
  /-- The number of states handed out so far, which is also the next state. -/
  next : Nat
deriving DecidableEq

namespace StateSupply

/-- A supply that has handed out nothing. -/
def fresh : StateSupply := ⟨0⟩

/-- The next state, and the supply after handing it out. -/
def take (supply : StateSupply) : StateIndex × StateSupply := (⟨supply.next⟩, ⟨supply.next + 1⟩)

instance : Describe StateSupply :=
  ⟨fun supply => "StateAllocator \x7b next: " ++ describe supply.next ++ " \x7d"⟩

end StateSupply

/-- A part of an automaton. -/
structure Fragment where
  start : StateIndex
  /-- The states in which the part accepts, in order. -/
  accepting : List StateIndex
  rules : Array (Finite.Rule StateIndex)

namespace Fragment

/-- A rule that is taken without reading. -/
def free (source target : StateIndex) : Finite.Rule StateIndex := ⟨source, .epsilon, target⟩

/-- A fragment that accepts where it starts. -/
def point (s : StateIndex) : Fragment := ⟨s, [s], #[]⟩

/-- A fragment that reads one character. -/
def edge (s : StateIndex) (c : Char) (t : StateIndex) : Fragment :=
  ⟨s, [t], #[⟨s, .character c, t⟩]⟩

/-- One fragment and then another: where the first accepts, the second starts. -/
def followedBy : Fragment → Fragment → Fragment
  | ⟨first, ends, rules⟩, ⟨second, accepting, more⟩ =>
    ⟨first, accepting, rules ++ more ++ ends.map fun s => free s second⟩

/-- Either of two fragments, from a new start state. -/
def either (s : StateIndex) : Fragment → Fragment → Fragment
  | ⟨first, accepting, rules⟩, ⟨second, others, more⟩ =>
    ⟨s, accepting ++ others, rules ++ more ++ [free s first, free s second]⟩

/-- A fragment any number of times, from a new start state: where it accepts, it
    starts again. -/
def looped (s : StateIndex) : Fragment → Fragment
  | ⟨first, accepting, rules⟩ =>
    ⟨s, accepting ++ [s], rules ++ (accepting.map fun t => free t first) ++ [free s first]⟩

end Fragment

namespace Pattern

/-- The fragment of a pattern, with states from a supply. -/
def compile : Pattern → StateSupply → Fragment × StateSupply
  | empty, supply =>
    let (s, supply) := supply.take
    (.point s, supply)
  | literal c, supply =>
    let (s, supply) := supply.take
    let (t, supply) := supply.take
    (.edge s c t, supply)
  | concatenate p q, supply =>
    let (a, supply) := p.compile supply
    let (b, supply) := q.compile supply
    (a.followedBy b, supply)
  | choose p q, supply =>
    let (a, supply) := p.compile supply
    let (b, supply) := q.compile supply
    let (s, supply) := supply.take
    (.either s a b, supply)
  | repeated p, supply =>
    let (a, supply) := p.compile supply
    let (s, supply) := supply.take
    (.looped s a, supply)

end Pattern

end WordAutomata
