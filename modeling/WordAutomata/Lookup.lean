import WordAutomata.Describe
import WordAutomata.Symbol

/-!
# Failing Lookups

The two ways in which the rules of a deterministic automaton can disappoint:
a place may have no rule for a symbol, which is found out while reading, and
a place may have two, which is found out when the rules are put together.

A place is whatever a lookup goes by. For a finite automaton it is a state,
for a pushdown automaton a configuration or a state with the top of a stack.

## Main definitions

* `MissingRule`: No rule for a symbol in a place.
* `AmbiguousRule`: Two rules for a symbol in a place.

## Theorems

* `MissingRule.message_eq`, `AmbiguousRule.message_eq`: The messages of the two.
-/

universe u

namespace WordAutomata

/-- There is no rule for a symbol in a place. -/
structure MissingRule (P : Type u) where
  place : P
  symbol : Symbol

/-- There are two rules for a symbol in a place. -/
structure AmbiguousRule (P : Type u) where
  place : P
  symbol : Symbol

/-- The place and the symbol at the end of a message. -/
def atPlace {P : Type u} [Describe P] (place : P) (symbol : Symbol) : String :=
  " for state " ++ describe place ++ " and symbol " ++ symbol.text

def MissingRule.message {P : Type u} [Describe P] (e : MissingRule P) : String :=
  "No applicable rule" ++ atPlace e.place e.symbol

def AmbiguousRule.message {P : Type u} [Describe P] (e : AmbiguousRule P) : String :=
  "Deterministic rulebook has multiple rules" ++ atPlace e.place e.symbol

theorem append_atPlace {P : Type u} [Describe P] (front : String) (place : P) (symbol : Symbol) :
    front ++ atPlace place symbol =
      front ++ " for state " ++ describe place ++ " and symbol " ++ symbol.text := by
  unfold atPlace
  rw [String.append_assoc, String.append_assoc, String.append_assoc, String.append_assoc,
    String.append_assoc]

theorem MissingRule.message_eq {P : Type u} [Describe P] (e : MissingRule P) : e.message =
    "No applicable rule for state " ++ describe e.place ++ " and symbol " ++ e.symbol.text :=
  append_atPlace _ _ _

theorem AmbiguousRule.message_eq {P : Type u} [Describe P] (e : AmbiguousRule P) : e.message =
    "Deterministic rulebook has multiple rules for state " ++ describe e.place ++
      " and symbol " ++ e.symbol.text :=
  append_atPlace _ _ _

end WordAutomata
