import WordAutomata.Finite.Rule
import WordAutomata.Catalogue
import WordAutomata.Lookup

/-!
# Deterministic Finite Automata

A rulebook in which no two rules share a source and a symbol. It can only be
made from rules of that kind: `ofRules` looks for the first rule whose source
and symbol an earlier rule has, and `ofDistinct` takes a proof that there is
none.

Epsilon is an ordinary symbol here. A rule for it can be looked up, but no run
takes it, since runs only read characters.

## Main definitions

* `Dfa.Rulebook`: Rules with a table by source and symbol.
* `Dfa.Rulebook.ofRules`, `ofDistinct`: The rulebook of a list of rules.
* `Dfa.Rulebook.rule?`, `next`: The rule that applies, and where it leads.
* `Dfa`: A rulebook with a start state and accept states.

## Theorems

* `Dfa.Rulebook.rules_of_ofRules`: A rulebook has the rules from which it was made.
* `Dfa.Rulebook.rule?_eq`: Looking up finds what a scan of the rules finds.
-/

universe u

namespace WordAutomata

namespace Dfa

/-- Rules of a deterministic automaton, with a table by source and symbol. -/
structure Rulebook (S : Type u) [Ordered S] where
  /-- The rules, in the order in which they were given. -/
  rules : List (Finite.Rule S)
  /-- Each rule in the row of its source and the column of its symbol. -/
  table : Catalogue.Table (Finite.Rule S) S Symbol
  tabulated : Catalogue.tabulate Finite.Rule.source Finite.Rule.symbol rules = .ok table

namespace Rulebook

/-- The source and the symbol of a rule, which in a rulebook belong to it alone. -/
def place {S : Type u} (r : Finite.Rule S) : S × Symbol := (r.source, r.symbol)

variable {S : Type u} [Ordered S]

/-- The rulebook of a list of rules. Fails if two rules share their source and
    symbol. -/
def ofRules (rules : List (Finite.Rule S)) : Except (AmbiguousRule S) (Rulebook S) :=
  match h : Catalogue.tabulate Finite.Rule.source Finite.Rule.symbol rules with
  | .ok table => .ok ⟨rules, table, h⟩
  | .error r => .error ⟨r.source, r.symbol⟩

theorem rules_of_ofRules {rules : List (Finite.Rule S)} {b : Rulebook S}
    (h : ofRules rules = .ok b) : b.rules = rules := by
  unfold ofRules at h
  split at h
  · cases h
    rfl
  · cases h

/-- The rulebook of a list of rules no two of which share source and symbol. -/
def ofDistinct (rules : List (Finite.Rule S)) (distinct : (rules.map place).Nodup) : Rulebook S :=
  match h : Catalogue.tabulate Finite.Rule.source Finite.Rule.symbol rules with
  | .ok table => ⟨rules, table, h⟩
  | .error _ => absurd (Catalogue.tabulate_of_nodup distinct) (by simp [h])

@[simp]
theorem rules_ofDistinct {rules : List (Finite.Rule S)} {distinct : (rules.map place).Nodup} :
    (ofDistinct rules distinct).rules = rules := by
  unfold ofDistinct
  split
  · rfl
  · rename_i h
    exact absurd (Catalogue.tabulate_of_nodup distinct) (by simp [h])

theorem distinct (b : Rulebook S) : (b.rules.map place).Nodup :=
  Catalogue.nodup_of_tabulate b.tabulated

/-- The rule for a state and a symbol, if there is one. -/
def rule? (b : Rulebook S) (state : S) (symbol : Symbol) : Option (Finite.Rule S) :=
  Catalogue.lookUp? b.table state symbol

theorem rule?_eq (b : Rulebook S) (state : S) (symbol : Symbol) :
    b.rule? state symbol = b.rules.find? fun r => r.applies state symbol := by
  rw [rule?, Catalogue.holds_of_tabulate b.tabulated]
  congr 1
  funext r
  simp [Catalogue.place, Finite.Rule.applies]

/-- The state to which the rule for a state and a symbol leads. -/
def next (b : Rulebook S) (state : S) (symbol : Symbol) : Except (MissingRule S) S :=
  match b.rule? state symbol with
  | some r => .ok r.target
  | none => .error ⟨state, symbol⟩

/-- The characters on the rules. -/
def alphabet (b : Rulebook S) : SortedSet Char := Finite.alphabet b.rules

end Rulebook

end Dfa

/-- A deterministic finite automaton. -/
structure Dfa (S : Type u) [Ordered S] where
  /-- The state in which every run starts. -/
  start : S
  /-- The states in which a run accepts. -/
  accepting : SortedSet S
  rulebook : Dfa.Rulebook S

namespace Dfa

variable {S : Type u} [Ordered S]

/-- The states of the automaton. -/
def states (a : Dfa S) : SortedSet S := Finite.states a.rulebook.rules a.start a.accepting

/-- The automaton in writing. -/
def sheet [Describe S] (a : Dfa S) : String :=
  Finite.sheet a.rulebook.rules a.start a.accepting

end Dfa

end WordAutomata
