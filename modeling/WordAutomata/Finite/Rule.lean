import WordAutomata.SortedSet.Lemmas
import WordAutomata.Symbol

/-!
# Rules of Finite Automata

A rule leads from one state to another and carries a symbol. It applies in
its source, for its symbol, and nowhere else.

## Main definitions

* `Finite.Rule`: Source, symbol and target.
* `Finite.Rule.applies`: Whether a rule can be taken.
* `Finite.alphabet`: The characters on a list of rules.
* `Finite.ends`: The states at the ends of a list of rules.
* `Finite.Path`: Taking any number of rules.
* `Finite.states`: The states of an automaton.

## Theorems

* `Finite.mem_states`: The states are the start state, those on the rules, and the
  accept states.
-/

universe u v

namespace WordAutomata

namespace Finite

/-- A rule of a finite automaton. -/
structure Rule (S : Type u) where
  /-- The state in which the rule can be taken. -/
  source : S
  /-- What is read. -/
  symbol : Symbol
  /-- The state to which the rule leads. -/
  target : S

namespace Rule

variable {S : Type u}

/-- Rules are compared by source, then by symbol, then by target. -/
instance [Ordered S] : Ordered (Rule S) :=
  .pullback (fun r => (r.source, r.symbol, r.target)) fun r s h => by
    cases r; cases s; simp_all

/-- Whether the rule can be taken in a state for a symbol. -/
def applies [Ordered S] (r : Rule S) (state : S) (symbol : Symbol) : Bool :=
  r.source = state && r.symbol = symbol

/-- The rule with the states at its ends replaced. -/
def map {T : Type v} (f : S → T) (r : Rule S) : Rule T := ⟨f r.source, r.symbol, f r.target⟩

instance [Describe S] : Describe (Rule S) where
  describe r := describe r.source ++ " --[" ++ r.symbol.text ++ "]-> " ++ describe r.target

end Rule

variable {S : Type u}

/-- The characters on the rules, epsilon left out. -/
def alphabet (rules : List (Rule S)) : SortedSet Char :=
  .ofList (rules.filterMap fun r => r.symbol.character?)

/-- The states at the ends of the rules, each rule's source before its target. -/
def ends (rules : List (Rule S)) : List S := rules.flatMap fun r => [r.source, r.target]

theorem mem_ends {rules : List (Rule S)} {s : S} :
    s ∈ ends rules ↔ ∃ r ∈ rules, s = r.source ∨ s = r.target := by
  simp only [ends, List.mem_flatMap, List.mem_cons, List.not_mem_nil, or_false]

/-- Rules of a list lead from a state to another one while a word is read.
    Epsilon rules may be taken anywhere in between. -/
inductive Path (rules : List (Rule S)) : S → List Char → S → Prop
  | refl (s : S) : Path rules s [] s
  | free {s t u : S} {word : List Char} :
      ⟨s, .epsilon, t⟩ ∈ rules → Path rules t word u → Path rules s word u
  | read {s t u : S} {c : Char} {word : List Char} :
      ⟨s, .character c, t⟩ ∈ rules → Path rules t word u → Path rules s (c :: word) u

/-- The rules, each on a line of its own. -/
def listing [Describe S] (rules : List (Rule S)) : String :=
  String.join (rules.map fun r => describe r ++ "\n")

/-- The states of an automaton: those on its rules, the start state, and the
    accept states. -/
def states [Ordered S] (rules : List (Rule S)) (start : S) (accepting : SortedSet S) :
    SortedSet S :=
  ((SortedSet.ofList (ends rules)).add start).union accepting

section States

variable [Ordered S] {rules : List (Rule S)} {start s : S} {accepting : SortedSet S} {r : Rule S}

theorem mem_states : s ∈ states rules start accepting ↔
    s = start ∨ (∃ r ∈ rules, s = r.source ∨ s = r.target) ∨ s ∈ accepting := by
  rw [states, SortedSet.mem_union, SortedSet.mem_add, SortedSet.mem_ofList, mem_ends, or_assoc]

theorem start_mem_states : start ∈ states rules start accepting := mem_states.2 (.inl rfl)

theorem source_mem_states (hr : r ∈ rules) : r.source ∈ states rules start accepting :=
  mem_states.2 (.inr (.inl ⟨r, hr, .inl rfl⟩))

theorem target_mem_states (hr : r ∈ rules) : r.target ∈ states rules start accepting :=
  mem_states.2 (.inr (.inl ⟨r, hr, .inr rfl⟩))

theorem mem_states_of_mem_accepting (hs : s ∈ accepting) : s ∈ states rules start accepting :=
  mem_states.2 (.inr (.inr hs))

end States

/-- An automaton in writing: its start state, its accept states and its rules,
    a line for each. -/
def sheet [Ordered S] [Describe S] (rules : List (Rule S)) (start : S)
    (accepting : SortedSet S) : String :=
  "Start state: " ++ describe start ++ "\nAccept states: " ++ describe accepting ++ "\n" ++
    listing rules

end Finite

end WordAutomata
