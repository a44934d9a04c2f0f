import WordAutomata.Pushdown.Rule
import WordAutomata.Catalogue
import WordAutomata.Lookup

/-!
# Deterministic Pushdown Automata

A rulebook in which no two rules share source, symbol and popped character.
At most one rule applies to a configuration for a symbol. There may still be
both a rule for epsilon and one for a character; then the epsilon rule is
taken, because runs follow epsilon rules first.

## Main definitions

* `Dpda.Rulebook`: Rules with a table by source, symbol and popped character.
* `Dpda.Rulebook.ofRules`: The rulebook of a list of rules.
* `Dpda.Rulebook.rule?`, `next`: The rule that applies, and where it leads.
* `Dpda`: A rulebook with a start configuration and accept states.

## Theorems

* `Dpda.Rulebook.rules_of_ofRules`: A rulebook has the rules from which it was made.
* `Dpda.Rulebook.rule?_eq`: Looking up finds what a scan of the rules finds.
-/

universe u

namespace WordAutomata

namespace Dpda

/-- A state with the top of a stack, as it appears in messages. -/
structure Top (S : Type u) where
  state : S
  top : Char

instance {S : Type u} [Describe S] : Describe (Top S) :=
  ⟨fun p => describe p.state ++ " with " ++ p.top.toString ++ " on top"⟩

/-- What a rule is looked up by besides its source: its symbol and the
    character it pops. -/
def column {S : Type u} (r : Pushdown.Rule S) : Symbol × Char := (r.symbol, r.popped)

/-- Rules of a deterministic pushdown automaton, with a table by source, symbol
    and popped character. -/
structure Rulebook (S : Type u) [Ordered S] where
  /-- The rules, in the order in which they were given. -/
  rules : List (Pushdown.Rule S)
  /-- Each rule in the row of its source and the column of symbol and popped
      character. -/
  table : Catalogue.Table (Pushdown.Rule S) S (Symbol × Char)
  tabulated : Catalogue.tabulate Pushdown.Rule.source column rules = .ok table

namespace Rulebook

variable {S : Type u} [Ordered S]

/-- The rulebook of a list of rules. Fails if two rules share source, symbol
    and popped character. -/
def ofRules (rules : List (Pushdown.Rule S)) : Except (AmbiguousRule (Top S)) (Rulebook S) :=
  match h : Catalogue.tabulate Pushdown.Rule.source column rules with
  | .ok table => .ok ⟨rules, table, h⟩
  | .error r => .error ⟨⟨r.source, r.popped⟩, r.symbol⟩

theorem rules_of_ofRules {rules : List (Pushdown.Rule S)} {b : Rulebook S}
    (h : ofRules rules = .ok b) : b.rules = rules := by
  unfold ofRules at h
  split at h
  · cases h
    rfl
  · cases h

/-- The rule for a configuration and a symbol, if there is one. -/
def rule? (b : Rulebook S) (c : Configuration S) (symbol : Symbol) : Option (Pushdown.Rule S) :=
  match c.state?, c.stack.top? with
  | some state, some top => Catalogue.lookUp? b.table state (symbol, top)
  | _, _ => none

theorem rule?_eq (b : Rulebook S) (c : Configuration S) (symbol : Symbol) :
    b.rule? c symbol = b.rules.find? fun r => r.applies c symbol := by
  unfold rule?
  split
  · rename_i state top hs ht
    rw [Catalogue.holds_of_tabulate b.tabulated]
    congr 1
    funext r
    simp only [Catalogue.place, column, Pushdown.Rule.applies, hs, ht, Prod.mk.injEq,
      Option.some.injEq, Bool.decide_and]
    rw [Bool.eq_iff_iff]
    simp only [Bool.and_eq_true, decide_eq_true_eq]
    grind
  · rename_i h
    refine (List.find?_eq_none.2 fun r _ happ => ?_).symm
    simp only [Pushdown.Rule.applies, Bool.and_eq_true, decide_eq_true_eq] at happ
    exact h _ _ happ.1.1 happ.1.2

theorem applies_of_rule? {b : Rulebook S} {c : Configuration S} {symbol : Symbol}
    {r : Pushdown.Rule S} (h : b.rule? c symbol = some r) :
    r ∈ b.rules ∧ r.applies c symbol = true := by
  rw [rule?_eq] at h
  have happ := List.find?_some h
  exact ⟨List.mem_of_find?_eq_some h, happ⟩

/-- The configuration to which the rule for a configuration and a symbol leads. -/
def next (b : Rulebook S) (c : Configuration S) (symbol : Symbol) :
    Except (MissingRule (Configuration S)) (Configuration S) :=
  match b.rule? c symbol with
  | some r => .ok (r.follow c)
  | none => .error ⟨c, symbol⟩

end Rulebook

end Dpda

/-- A deterministic pushdown automaton. -/
structure Dpda (S : Type u) [Ordered S] where
  /-- The configuration in which every run starts. -/
  start : Configuration S
  /-- The states in which a run accepts. -/
  accepting : SortedSet S
  rulebook : Dpda.Rulebook S

end WordAutomata
