import WordAutomata.Proofs.DfaRuns
import WordAutomata.Proofs.Paths
import Mathlib

/-!
# Sets of One State

A deterministic automaton can be run as if it were not: with its rules in a rulebook
that does not ask whether they are deterministic, and with a set of states in place of
the state. One would expect a single state in the set, and this is so up to a
character that lacks a rule.

There the two part. One run stops, stays in its state and reports the character. The
other goes on without any state, for good, since from no state there is no way on.
So it accepts nothing where the first one has no answer.

Epsilon rules have to be left out. A deterministic run never takes one, while a closure
does, and the set would grow.

## Main definitions

* `Dfa.toNfa`: The automaton with the same rules.

## Theorems

* `Dfa.mem_states_toNfa`: The states that its runs hold.
* `Dfa.toNfa_simulates`: What the two runs have to do with each other.
-/

universe u

namespace WordAutomata

namespace Dfa

variable {S : Type u} [Ordered S]

/-- The automaton with the same start state, accept states and rules that is run with
    sets of states. -/
def toNfa (a : Dfa S) : Nfa S := ⟨a.start, a.accepting, .ofRules a.rulebook.rules⟩

variable [Describe S] {a : Dfa S}

/-- A set holds the state of the run, if the word could be read. -/
theorem mem_states_toNfa (hfree : ∀ r ∈ a.rulebook.rules, r.symbol ≠ .epsilon) (log log' : Log)
    {w : List Char} {t : S} : t ∈ ((a.toNfa.run log').readWord w).states ↔
      ((a.run log).readWord w).2 = none ∧ ((a.run log).readWord w).1.state = t := by
  rw [Nfa.states_run, Nfa.startSet, Nfa.Rulebook.mem_foldl_next]
  simp only [SortedSet.mem_singleton, exists_eq_left]
  exact path_iff_readWord hfree log

theorem states_toNfa_of_none (hfree : ∀ r ∈ a.rulebook.rules, r.symbol ≠ .epsilon) (log log' : Log)
    {w : List Char} (h : ((a.run log).readWord w).2 = none) :
    ((a.toNfa.run log').readWord w).states = .singleton ((a.run log).readWord w).1.state := by
  apply SortedSet.ext_mem
  intro t
  rw [mem_states_toNfa hfree log log', and_iff_right h, SortedSet.mem_singleton]
  exact eq_comm

theorem states_toNfa_of_some (hfree : ∀ r ∈ a.rulebook.rules, r.symbol ≠ .epsilon) (log log' : Log)
    {w : List Char} {e : MissingRule S} (h : ((a.run log).readWord w).2 = some e) :
    ((a.toNfa.run log').readWord w).states = .empty := by
  apply SortedSet.ext_mem
  intro t
  rw [mem_states_toNfa hfree log log', h]
  simp only [reduceCtorEq, false_and, SortedSet.not_mem_empty]

/-- Without epsilon rules a run with sets holds the one state in which the deterministic
    run is, as long as that finds its rules. From the first character on that lacks a
    rule it holds none, however the word goes on. So it accepts a word exactly if the
    answer of the deterministic automaton is yes, and not if there is no answer. -/
theorem toNfa_simulates (a : Dfa S) (hfree : ∀ r ∈ a.rulebook.rules, r.symbol ≠ .epsilon)
    (w : List Char) :
    (∀ log log', ((a.run log).readWord w).2 = none →
      ((a.toNfa.run log').readWord w).states = .singleton ((a.run log).readWord w).1.state) ∧
    (∀ log e, ((a.run log).readWord w).2 = some e → ∃ u c v, w = u ++ c :: v ∧
      ((a.run log).readWord u).2 = none ∧
      e = ⟨((a.run log).readWord u).1.state, .character c⟩ ∧
      ∀ log', ((a.toNfa.run log').readWord u).states =
          .singleton ((a.run log).readWord u).1.state ∧
        ∀ v, ((a.toNfa.run log').readWord (u ++ c :: v)).states = .empty) ∧
    (a.toNfa.accepts w = true ↔ a.accepts w = .ok true) := by
  refine ⟨fun log log' => states_toNfa_of_none hfree log log', fun log e he => ?_, ?_⟩
  · rcases Run.exists_next_eq_error he with ⟨u, c, v, rfl, hu, hnext⟩
    refine ⟨u, c, v, rfl, hu, Rulebook.eq_of_next_eq_error hnext, fun log' => ⟨?_, fun v => ?_⟩⟩
    · exact states_toNfa_of_none hfree log log' hu
    · -- The word ends in another way, but at the character the run fails as it did.
      apply states_toNfa_of_some hfree log log' (e := e)
      rw [Run.readWord_append_cons_of_error hu hnext]
  · rw [Nfa.accepts_iff]
    exact (judge_eq_ok_true_iff hfree .silent).symm

/-- Two characters in turns until a third one ends it. From the last state no rule leads
    on. -/
def closing : Dfa Nat where
  start := 1
  accepting := .ofList [2, 3]
  rulebook := .ofDistinct
    [⟨1, .character 'a', 2⟩, ⟨2, .character 'b', 1⟩, ⟨2, .character 'c', 3⟩] (by decide)

/-- The set holds the last state when the end is read, and nothing once the word goes on
    after that. -/
theorem toNfa_simulates_closing :
    (∀ r ∈ closing.rulebook.rules, r.symbol ≠ .epsilon) ∧
    ((closing.toNfa.run .silent).readWord ['a', 'b', 'a', 'c']).states = .singleton 3 ∧
    closing.toNfa.accepts ['a', 'b', 'a', 'c'] = true ∧
    closing.accepts ['a', 'c', 'b', 'a'] = .error ⟨3, .character 'b'⟩ ∧
    ((closing.toNfa.run .silent).readWord ['a', 'c', 'b', 'a']).states = .empty ∧
    closing.toNfa.accepts ['a', 'c', 'b', 'a'] = false := by
  have hfree : ∀ r ∈ closing.rulebook.rules, r.symbol ≠ .epsilon := by
    rw [closing, Rulebook.rules_ofDistinct]
    decide
  rcases toNfa_simulates closing hfree ['a', 'b', 'a', 'c'] with ⟨hread, _, haccepts⟩
  rcases toNfa_simulates closing hfree ['a', 'c', 'b', 'a'] with ⟨_, hfails, hrejects⟩
  have hrun : ((closing.run .silent).readWord ['a', 'b', 'a', 'c']).1.state = 3 := by cbv
  have hfailed : closing.accepts ['a', 'c', 'b', 'a'] = .error ⟨3, .character 'b'⟩ := by cbv
  refine ⟨hfree, ?_, haccepts.2 (by cbv), hfailed, ?_, ?_⟩
  · rw [hread .silent .silent (by cbv), hrun]
  · rcases hfails .silent ⟨3, .character 'b'⟩ (by cbv) with ⟨u, c, v, hw, _, _, hstates⟩
    rw [hw]
    exact (hstates .silent).2 v
  · rw [Bool.eq_false_iff, ne_eq, hrejects, hfailed]
    simp only [reduceCtorEq, not_false_eq_true]

end Dfa

end WordAutomata
