import WordAutomata.Pushdown.Configuration
import WordAutomata.Symbol

/-!
# Rules of Pushdown Automata

A rule applies in its source, for its symbol, and with one particular
character on top of the stack. Taking it replaces this character by others,
possibly none.

## Main definitions

* `Pushdown.Rule`: Source, symbol, target, and what is popped and pushed.
* `Pushdown.Rule.applies`: Whether a rule can be taken.
* `Pushdown.Rule.follow`: The configuration after taking a rule.
* `Pushdown.Step`, `Pushdown.Reaches`: Taking one rule, and any number of them.
-/

universe u

namespace WordAutomata

namespace Pushdown

/-- A rule of a pushdown automaton. -/
structure Rule (S : Type u) where
  /-- The state in which the rule can be taken. -/
  source : S
  /-- What is read. -/
  symbol : Symbol
  /-- The state to which the rule leads. -/
  target : S
  /-- What has to be on top of the stack. -/
  popped : Char
  /-- What replaces it, the new top first. -/
  pushed : List Char

namespace Rule

variable {S : Type u}

/-- Whether the rule can be taken in a configuration for a symbol. -/
def applies [Ordered S] (r : Rule S) (c : Configuration S) (symbol : Symbol) : Bool :=
  c.state? = some r.source && c.stack.top? = some r.popped && r.symbol = symbol

/-- The configuration after taking the rule: the top of the stack is replaced. -/
def follow (r : Rule S) (c : Configuration S) : Configuration S :=
  .of r.target (c.stack.pop.pushAll r.pushed)

instance [Describe S] : Describe (Rule S) where
  describe r := describe r.source ++ " --[" ++ r.symbol.text ++ ";" ++ r.popped.toString ++ "/" ++
    String.ofList r.pushed ++ "]-> " ++ describe r.target

end Rule

variable {S : Type u}

/-- The rules, each on a line of its own. -/
def listing [Describe S] (rules : List (Rule S)) : String :=
  String.join (rules.map fun r => describe r ++ "\n")

/-- One rule of a list leads from a configuration to another one. -/
def Step [Ordered S] (rules : List (Rule S)) (symbol : Symbol) (c d : Configuration S) : Prop :=
  ∃ r ∈ rules, r.applies c symbol = true ∧ d = r.follow c

/-- Rules of a list lead from a configuration to another one while a word is
    read. Epsilon rules may be taken anywhere in between. -/
inductive Reaches [Ordered S] (rules : List (Rule S)) :
    Configuration S → List Char → Configuration S → Prop
  | refl (c : Configuration S) : Reaches rules c [] c
  | free {c d e : Configuration S} {word : List Char} :
      Step rules .epsilon c d → Reaches rules d word e → Reaches rules c word e
  | read {c d e : Configuration S} {a : Char} {word : List Char} :
      Step rules (.character a) c d → Reaches rules d word e → Reaches rules c (a :: word) e

end Pushdown

end WordAutomata
