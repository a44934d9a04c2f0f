import WordAutomata.Finite.Rule
import WordAutomata.Catalogue
import WordAutomata.Exploration
import WordAutomata.SortedSet.Lemmas

/-!
# Nondeterministic Finite Automata

A rulebook holds rules in any number, also with epsilon. Several rules may
apply at once, so a rulebook moves a set of states: `step` takes the union of
the targets, and `closure` adds what epsilon rules reach.

The closure is a walk through the graph of the epsilon rules. Only the states
it starts from and the targets of rules can be met, so it ends, whatever
cycles the rules have.

## Main definitions

* `Nfa.Rulebook`: Rules with a search tree by their sources.
* `Nfa.Rulebook.rulesFor`, `targets`: The rules that apply, and where they lead.
* `Nfa.Rulebook.step`: The targets from a set of states for one symbol.
* `Nfa.Rulebook.closure`: All that epsilon rules reach.
* `Nfa.Rulebook.next`: One character read, and then the closure.
* `Nfa`: A rulebook with a start state and accept states.

## Theorems

* `Nfa.Rulebook.rulesFor_eq`: Looking up finds what a scan of the rules finds.
* `Nfa.Rulebook.mem_closure_or_target`: A closure holds only states that were
  given or are targets.
-/

universe u

namespace WordAutomata

namespace Nfa

/-- Rules of a nondeterministic automaton, with a search tree by their sources. -/
structure Rulebook (S : Type u) [Ordered S] where
  /-- The rules, in the order in which they were given. -/
  rules : List (Finite.Rule S)
  /-- For each source its rules, in the same order. -/
  outgoing : Std.TreeMap S (List (Finite.Rule S))
  outgoing_eq : outgoing = Catalogue.grouped Finite.Rule.source rules

namespace Rulebook

variable {S : Type u} [Ordered S]

/-- The rulebook of a list of rules. -/
def ofRules (rules : List (Finite.Rule S)) : Rulebook S := ⟨rules, _, rfl⟩

/-- The rules that apply in a state for a symbol, in order. -/
def rulesFor (b : Rulebook S) (state : S) (symbol : Symbol) : List (Finite.Rule S) :=
  (b.outgoing.getD state []).filter fun r => r.symbol = symbol

theorem rulesFor_eq (b : Rulebook S) (state : S) (symbol : Symbol) :
    b.rulesFor state symbol = b.rules.filter fun r => r.applies state symbol := by
  rw [rulesFor, b.outgoing_eq, Catalogue.getD_grouped, List.filter_filter]
  congr 1
  funext r
  rw [Finite.Rule.applies, Bool.and_comm]

theorem mem_rulesFor {b : Rulebook S} {state : S} {symbol : Symbol} {r : Finite.Rule S} :
    r ∈ b.rulesFor state symbol ↔ r ∈ b.rules ∧ r.applies state symbol = true := by
  rw [rulesFor_eq, List.mem_filter]

/-- The states to which these rules lead, in order and with repetitions. -/
def targets (b : Rulebook S) (state : S) (symbol : Symbol) : List S :=
  (b.rulesFor state symbol).map Finite.Rule.target

theorem mem_targets {b : Rulebook S} {state t : S} {symbol : Symbol} :
    t ∈ b.targets state symbol ↔ ⟨state, symbol, t⟩ ∈ b.rules := by
  simp only [targets, List.mem_map, mem_rulesFor, Finite.Rule.applies, Bool.and_eq_true,
    decide_eq_true_eq]
  constructor
  · rintro ⟨r, ⟨hr, rfl, rfl⟩, rfl⟩
    exact hr
  · intro h
    exact ⟨_, ⟨h, rfl, rfl⟩, rfl⟩

/-- The states reached from any of the given ones by a rule for the symbol. -/
def step (b : Rulebook S) (states : SortedSet S) (symbol : Symbol) : SortedSet S :=
  .ofList (states.toList.flatMap fun state => b.targets state symbol)

theorem mem_step {b : Rulebook S} {states : SortedSet S} {symbol : Symbol} {t : S} :
    t ∈ b.step states symbol ↔ ∃ s, s ∈ states ∧ ⟨s, symbol, t⟩ ∈ b.rules := by
  simp [step, mem_targets, SortedSet.mem_def (s := states)]

/-- The graph of the epsilon rules. -/
def freeMoves (b : Rulebook S) : Graph S S where
  edges state := b.targets state .epsilon
  target? := some

/-- The states that a closure can hold: those given, and the targets of rules. -/
def Reachable (b : Rulebook S) (seeds : List S) (s : S) : Prop :=
  s ∈ seeds ∨ s ∈ b.rules.map Finite.Rule.target

theorem confines_freeMoves (b : Rulebook S) (seeds : List S) :
    b.freeMoves.Confines (b.Reachable seeds) where
  closed a _ t ht := by
    simp only [Graph.successors, freeMoves, List.filterMap_some] at ht
    exact .inr (List.mem_map.2 ⟨_, mem_targets.1 ht, rfl⟩)
  finite := ⟨seeds ++ b.rules.map Finite.Rule.target, fun a ha => List.mem_append.2 ha⟩

/-- The walk through the epsilon rules from some states. -/
def freeWalk (b : Rulebook S) (seeds : List S) : Exploration S S :=
  b.freeMoves.explore _ (b.confines_freeMoves seeds) seeds fun _ h => .inl h

/-- All states reached by epsilon rules alone, the given ones included. -/
def closure (b : Rulebook S) (states : SortedSet S) : SortedSet S :=
  .ofList (b.freeWalk states.toList).discovered.toList

theorem mem_closure_or_target {b : Rulebook S} {states : SortedSet S} {t : S}
    (h : t ∈ b.closure states) : t ∈ states ∨ t ∈ b.rules.map Finite.Rule.target := by
  have hw : t ∈ (b.freeWalk states.toList).discovered.toList := SortedSet.mem_ofList.1 h
  show b.Reachable states.toList t
  exact Graph.inside_of_mem_explore hw

/-- The states after reading a character: those reached by a rule for it, and
    what epsilon rules reach from there. -/
def next (b : Rulebook S) (states : SortedSet S) (c : Char) : SortedSet S :=
  b.closure (b.step states (.character c))

theorem mem_rules_of_mem_next {b : Rulebook S} {states : SortedSet S} {c : Char} {t : S}
    (h : t ∈ b.next states c) : t ∈ b.rules.map Finite.Rule.target := by
  rcases mem_closure_or_target h with h | h
  · obtain ⟨s, -, hr⟩ := mem_step.1 h
    exact List.mem_map.2 ⟨_, hr, rfl⟩
  · exact h

/-- The characters on the rules. -/
def alphabet (b : Rulebook S) : SortedSet Char := Finite.alphabet b.rules

end Rulebook

end Nfa

/-- A nondeterministic finite automaton. -/
structure Nfa (S : Type u) [Ordered S] where
  /-- The state in which every run starts. -/
  start : S
  /-- The states in which a run accepts. -/
  accepting : SortedSet S
  rulebook : Nfa.Rulebook S

namespace Nfa

variable {S : Type u} [Ordered S]

/-- The states of the automaton. -/
def states (a : Nfa S) : SortedSet S := Finite.states a.rulebook.rules a.start a.accepting

/-- The automaton in writing. -/
def sheet [Describe S] (a : Nfa S) : String :=
  Finite.sheet a.rulebook.rules a.start a.accepting

/-- The epsilon closure of the start state, in which every run begins. -/
def startSet (a : Nfa S) : SortedSet S := a.rulebook.closure (.singleton a.start)

/-- Whether a set of states holds an accept state. -/
def isAccepting (a : Nfa S) (states : SortedSet S) : Bool := states.intersects a.accepting

end Nfa

end WordAutomata
