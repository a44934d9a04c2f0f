import WordAutomata.Proofs.Paths
import WordAutomata.Proofs.SpelledTrails

/-!
# Runs and Trails of Rules

A path says that a word can be read on the way from one state to another, and
keeps quiet about the rules. A trail is the row of rules itself: each begins
where the one before it ends. What a trail spells is what stands on its rules
when the epsilons are struck out, wherever they stand.

A path is no more than a trail with its rules forgotten, so a run holds exactly
the states to which trails lead that spell the word. That makes precise in which
order a run may take epsilon rules: in any, and as often as it likes.

## Main definitions

* `Finite.ruleKind`: Rules as steps from state to state.
* `Finite.Trail`: A row of rules that leads from one state to another.
* `Finite.spelled`: The word on a row of rules.

## Theorems

* `Finite.path_iff_exists_trail`: Paths and trails.
* `Nfa.readWord_follows_trails`: A run holds what trails lead to, and is closed.
-/

universe u

namespace WordAutomata

namespace Finite

variable {S : Type u} {rules : List (Rule S)}

/-- Rules of finite automata lead from one state to another. -/
def ruleKind : RuleKind (Rule S) S := ⟨Rule.symbol, fun r s t => s = r.source ∧ t = r.target⟩

/-- A row of rules leads from one state to another: the first rule leaves the one,
    each rule leaves the target of the rule before, and the last one leads to the
    other. -/
def Trail (s : S) (trail : List (Rule S)) (t : S) : Prop := ruleKind.Trail s trail t

/-- The characters on a row of rules, in order. Epsilons leave nothing. -/
def spelled (trail : List (Rule S)) : List Char := ruleKind.spelled trail

/-- A path for a word is a trail that spells the word. -/
theorem path_iff_exists_trail {s t : S} {w : List Char} :
    Path rules s w t ↔
      ∃ trail, Trail s trail t ∧ (∀ r ∈ trail, r ∈ rules) ∧ spelled trail = w := by
  show Path rules s w t ↔ ruleKind.Spells rules s w t
  constructor
  · intro h
    induction h with
    | refl s => exact RuleKind.spells_refl s
    | free hr _ ih => exact ih.free hr rfl ⟨rfl, rfl⟩
    | read hr _ ih => exact ih.read hr rfl ⟨rfl, rfl⟩
  · intro h
    refine RuleKind.Spells.induction h (.refl t) ?_ ?_
    · rintro ⟨source, _, target⟩ _ _ w hr rfl ⟨rfl, rfl⟩ hrest
      exact .free hr hrest
    · rintro ⟨source, _, target⟩ c _ _ w hr rfl ⟨rfl, rfl⟩ hrest
      exact .read hr hrest

end Finite

namespace Nfa

variable {S : Type u} [Ordered S] [Describe S] {a : Nfa S}

/-- The states of a run from any set after a word. -/
theorem mem_states_runFrom {A : SortedSet S} {log : Log} {w : List Char} {q : S} :
    q ∈ ((a.runFrom A log).readWord w).states ↔ ∃ s ∈ A, Finite.Path a.rulebook.rules s w q := by
  rw [Run.states_readWord]
  exact Rulebook.mem_foldl_next

/-- A run from a set of states follows the trails. After every word it holds the
    states to which trails from the set lead that spell the word, and no epsilon
    rule leads out of it. So the automaton accepts the words that are spelled by
    trails from its start state to an accept state. -/
theorem readWord_follows_trails (a : Nfa S) (A : SortedSet S) (log : Log) (w : List Char) :
    (∀ q, q ∈ ((a.runFrom A log).readWord w).states ↔
      ∃ s ∈ A, ∃ trail, Finite.Trail s trail q ∧ (∀ r ∈ trail, r ∈ a.rulebook.rules) ∧
        Finite.spelled trail = w) ∧
    (∀ p ∈ ((a.runFrom A log).readWord w).states, ∀ q, ⟨p, .epsilon, q⟩ ∈ a.rulebook.rules →
      q ∈ ((a.runFrom A log).readWord w).states) ∧
    (a.accepts w = true ↔
      ∃ q ∈ a.accepting, ∃ trail, Finite.Trail a.start trail q ∧
        (∀ r ∈ trail, r ∈ a.rulebook.rules) ∧ Finite.spelled trail = w) := by
  refine ⟨fun q => ?_, fun p hp q hpq => ?_, ?_⟩
  · simp only [mem_states_runFrom, Finite.path_iff_exists_trail]
  · rcases mem_states_runFrom.1 hp with ⟨s, hs, hpath⟩
    -- One more epsilon rule at the end of a path spells nothing more.
    have hlonger := hpath.append (.free hpq (.refl q))
    rw [List.append_nil] at hlonger
    exact mem_states_runFrom.2 ⟨s, hs, hlonger⟩
  · rw [accepts_iff]
    simp only [Finite.path_iff_exists_trail]

end Nfa

end WordAutomata
