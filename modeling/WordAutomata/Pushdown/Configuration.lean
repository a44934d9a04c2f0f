import WordAutomata.Pushdown.Stack
import WordAutomata.Describe

/-!
# Configurations

All there is to know about a pushdown automaton at one moment: its state and
its stack. A stuck automaton has no state any more. It keeps its stack, but no
rule ever applies to it.

## Main definitions

* `Configuration`: A state, unless stuck, and a stack.
* `Configuration.stuck`: The stuck configuration with the same stack.
-/

universe u

namespace WordAutomata

/-- The state of a pushdown automaton with its stack. -/
structure Configuration (S : Type u) where
  /-- The state, or none if the automaton is stuck. -/
  state? : Option S
  stack : Stack

namespace Configuration

variable {S : Type u}

/-- Configurations are compared by state and then by stack. The stuck ones
    come first. -/
instance [Ordered S] : Ordered (Configuration S) :=
  .pullback (fun c => (c.state?, c.stack)) fun c d h => by
    cases c; cases d; simp_all

/-- Configurations are equal if their states and their stacks are. -/
instance [Ordered S] : BEq (Configuration S) :=
  ⟨fun c d => decide (c.state? = d.state?) && c.stack == d.stack⟩

/-- The configuration of a state and a stack. -/
def of (state : S) (stack : Stack) : Configuration S := ⟨some state, stack⟩

/-- The stuck configuration with the same stack. -/
def stuck (c : Configuration S) : Configuration S := ⟨none, c.stack⟩

def isStuck (c : Configuration S) : Bool := c.state?.isNone

/-- Whether the state is one of a set. A stuck configuration has no state. -/
def isIn [Ordered S] (c : Configuration S) (states : SortedSet S) : Bool :=
  match c.state? with
  | none => false
  | some s => states.contains s

instance [Describe S] : Describe (Configuration S) where
  describe c := (match c.state? with
    | none => "stuck"
    | some s => describe s) ++ "/" ++ c.stack.text

end Configuration

end WordAutomata
