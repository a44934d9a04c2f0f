import WordAutomata.Nfa.Determinize
import WordAutomata.Proofs.DfaRuns
import WordAutomata.Proofs.Paths

/-!
# Determinized Runs

A determinized automaton goes through the same sets of states as a run of the
automaton it was made from. The state of the one is the set of the other, after
every word over the alphabet.

Two things carry this. The walk that finds the sets finds every set that reading
leads to, so that no rule is missing: a set was visited if it was found, and a
visit makes a rule for each letter. And the sets that a run goes through are
closed under epsilon rules, so the closing that `move` does before it reads adds
nothing.

A letter outside the alphabet has no rule anywhere. There the determinized run
fails, while the other goes on with no state at all and rejects.

## Main definitions

* `Nfa.Reads`: A character that is on a rule.
* `Nfa.Found`: A set that the walk finds from the start set.

## Theorems

* `Nfa.mem_edges_discover`: The rules of a walk, one for each set and letter.
* `Nfa.next_determinize`: The determinized automaton has a rule for every letter
  of the alphabet.
* `Nfa.readWord_determinize`: Its run is the run over sets.
* `Nfa.determinize_simulates`: The two automata agree on every word.
-/

universe u

namespace WordAutomata

/-- A list of which not all elements have a property has a first one that lacks
    it. -/
theorem exists_first_not {α : Type u} {P : α → Prop} {l : List α} (h : ¬ ∀ a ∈ l, P a) :
    ∃ front a back, l = front ++ a :: back ∧ (∀ b ∈ front, P b) ∧ ¬ P a := by
  induction l with
  | nil => exact absurd (fun a ha => absurd ha List.not_mem_nil) h
  | cons a l ih =>
      by_cases ha : P a
      · have hrest : ¬ ∀ b ∈ l, P b := by
          intro hall
          apply h
          intro b hb
          rcases List.mem_cons.1 hb with rfl | hb
          · exact ha
          · exact hall b hb
        rcases ih hrest with ⟨front, b, back, rfl, hfront, hb⟩
        refine ⟨a :: front, b, back, rfl, fun c hc => ?_, hb⟩
        rcases List.mem_cons.1 hc with rfl | hc
        · exact ha
        · exact hfront c hc
      · exact ⟨[], a, l, rfl, fun b hb => absurd hb List.not_mem_nil, ha⟩

theorem Finite.mem_alphabet {S : Type u} {rules : List (Finite.Rule S)} {c : Char} :
    c ∈ Finite.alphabet rules ↔ ∃ r ∈ rules, r.symbol = .character c := by
  have hchar : ∀ x : Symbol, x.character? = some c ↔ x = .character c := by
    intro x
    cases x <;> simp [Symbol.character?]
  simp only [Finite.alphabet, SortedSet.mem_ofList, List.mem_filterMap, hchar]

namespace Nfa

variable {S : Type u} [Ordered S] {a : Nfa S}

/-- A rule of the automaton reads the character. -/
def Reads (a : Nfa S) (c : Char) : Prop := ∃ r ∈ a.rulebook.rules, r.symbol = .character c

/-! ## The walk through the sets -/

theorem leads_setGraph {letters : List Char} {X Y : SortedSet S} :
    (a.setGraph letters).Leads X Y ↔ ∃ c ∈ letters, Y = a.move X c := by
  simp only [Graph.Leads, Graph.successors, setGraph, setRules, List.filterMap_map,
    List.mem_filterMap, Function.comp_apply, Option.some.injEq, eq_comm]

theorem mem_discovered_discover {seeds : List (SortedSet S)} {X : SortedSet S} :
    X ∈ (a.discover seeds).discovered.toList ↔
      (a.setGraph a.rulebook.alphabet.toList).Reachable seeds X := by
  rw [discover]
  exact Graph.mem_discovered_explore

theorem mem_visits_discover {seeds : List (SortedSet S)} {X : SortedSet S} :
    X ∈ (a.discover seeds).visits.map Visit.node ↔
      X ∈ (a.discover seeds).discovered.toList := by
  rw [mem_discovered_discover, discover]
  exact Graph.mem_visits_explore

/-- A walk sees one rule for each set that it finds and each letter. -/
theorem mem_edges_discover {seeds : List (SortedSet S)} {r : Finite.Rule (SortedSet S)} :
    r ∈ (a.discover seeds).edges ↔ ∃ X ∈ (a.discover seeds).discovered.toList,
      ∃ c, a.Reads c ∧ r = ⟨X, .character c, a.move X c⟩ := by
  have hedges : ∀ v ∈ (a.discover seeds).visits,
      v.edges = a.setRules a.rulebook.alphabet.toList v.node := by
    intro v hv
    rw [discover] at hv
    exact Graph.edges_of_mem_explore hv
  have hreads : ∀ c, c ∈ a.rulebook.alphabet.toList ↔ a.Reads c := fun c => Finite.mem_alphabet
  rw [Exploration.edges, List.mem_flatMap]
  constructor
  · rintro ⟨v, hv, hr⟩
    rw [hedges v hv, setRules, List.mem_map] at hr
    rcases hr with ⟨c, hc, rfl⟩
    refine ⟨v.node, ?_, c, (hreads c).1 hc, rfl⟩
    exact mem_visits_discover.1 (List.mem_map.2 ⟨v, hv, rfl⟩)
  · rintro ⟨X, hX, c, hc, rfl⟩
    rcases List.mem_map.1 (mem_visits_discover.2 hX) with ⟨v, hv, rfl⟩
    refine ⟨v, hv, ?_⟩
    rw [hedges v hv, setRules, List.mem_map]
    exact ⟨c, (hreads c).2 hc, rfl⟩

/-- The walk finds the set from the start set. -/
def Found (a : Nfa S) (X : SortedSet S) : Prop :=
  X ∈ (a.discover [a.startSet]).discovered.toList

theorem found_startSet : a.Found a.startSet :=
  mem_discovered_discover.2 ⟨_, List.mem_singleton_self _, .refl⟩

theorem found_move {X : SortedSet S} {c : Char} (hX : a.Found X) (hc : a.Reads c) :
    a.Found (a.move X c) := by
  rcases mem_discovered_discover.1 hX with ⟨s, hs, hsX⟩
  refine mem_discovered_discover.2 ⟨s, hs, hsX.tail (leads_setGraph.2 ⟨c, ?_, rfl⟩)⟩
  exact Finite.mem_alphabet.2 hc

/-! ## The determinized automaton -/

theorem rules_determinize : a.determinize.rulebook.rules = (a.discover [a.startSet]).edges :=
  @Dfa.Rulebook.rules_ofDistinct _ _ _ nodup_place_edges

/-- A set that was found has a rule for every letter. -/
theorem next_determinize {X : SortedSet S} {c : Char} (hX : a.Found X) (hc : a.Reads c) :
    a.determinize.rulebook.next X (.character c) = .ok (a.move X c) := by
  apply Dfa.Rulebook.next_of_mem
  rw [rules_determinize]
  exact mem_edges_discover.2 ⟨X, hX, c, hc, rfl⟩

/-- A character outside the alphabet has no rule. -/
theorem next_determinize_of_not_reads {X : SortedSet S} {c : Char} (hc : ¬ a.Reads c) :
    a.determinize.rulebook.next X (.character c) = .error ⟨X, .character c⟩ := by
  apply Dfa.Rulebook.next_of_forall_ne
  intro r hr hsym
  rw [rules_determinize] at hr
  rcases mem_edges_discover.1 hr with ⟨Y, _, d, hd, rfl⟩
  injection hsym with hdc
  exact hc (hdc ▸ hd)

/-- A closed set that was found accepts in one automaton as in the other. -/
theorem contains_accepting_determinize {X : SortedSet S} (hX : a.Found X)
    (hclosed : a.rulebook.closure X = X) :
    a.determinize.accepting.contains X = a.isAccepting X := by
  rw [Bool.eq_iff_iff, SortedSet.contains_iff]
  have hmem : X ∈ a.determinize.accepting ↔
      X ∈ (a.discover [a.startSet]).discovered.toList.filter
        fun Y => a.isAccepting (a.rulebook.closure Y) :=
    SortedSet.mem_ofList
  rw [hmem, List.mem_filter, hclosed]
  exact ⟨And.right, fun h => ⟨hX, h⟩⟩

variable [Describe S]

/-- The determinized run goes through the sets of the other run. They are found
    and closed. -/
theorem readWord_determinize {word : List Char} (hw : ∀ c ∈ word, a.Reads c) (log : Log) :
    ((a.determinize.run log).readWord word).2 = none ∧
      ((a.determinize.run log).readWord word).1.automaton = a.determinize ∧
      ((a.determinize.run log).readWord word).1.state =
        word.foldl a.rulebook.next a.startSet ∧
      (a.Found (word.foldl a.rulebook.next a.startSet) ∧
        a.rulebook.closure (word.foldl a.rulebook.next a.startSet) =
          word.foldl a.rulebook.next a.startSet) := by
  have hnext : ∀ X c, (a.Found X ∧ a.rulebook.closure X = X) → a.Reads c →
      a.determinize.rulebook.next X (.character c) = .ok (a.rulebook.next X c) ∧
        (a.Found (a.rulebook.next X c) ∧
          a.rulebook.closure (a.rulebook.next X c) = a.rulebook.next X c) := by
    rintro X c ⟨hX, hclosed⟩ hc
    -- Closing a closed set before it is moved changes nothing.
    have hmove : a.move X c = a.rulebook.next X c := by
      rw [move, hclosed]
    rw [← hmove]
    refine ⟨next_determinize hX hc, found_move hX hc, ?_⟩
    rw [hmove]
    exact Rulebook.closure_next
  exact Dfa.Run.readWord_eq_foldl (a.determinize.run log) hnext
    ⟨found_startSet, Rulebook.closure_closure⟩ hw

/-- On words over the alphabet the determinized automaton is in the set of states
    in which the other can be, and answers alike. On any other word it fails, at
    the first character outside the alphabet, and the other rejects. -/
theorem determinize_simulates (a : Nfa S) (word : List Char) :
    (∀ u, u <+: word → (∀ c ∈ u, a.Reads c) → ∀ log log',
      ((a.determinize.run log).readWord u).2 = none ∧
        ((a.determinize.run log).readWord u).1.state = ((a.run log').readWord u).states) ∧
    ((∀ c ∈ word, a.Reads c) → a.determinize.accepts word = .ok (a.accepts word)) ∧
    ((¬ ∀ c ∈ word, a.Reads c) → ∃ u c v, word = u ++ c :: v ∧ (∀ x ∈ u, a.Reads x) ∧
      ¬ a.Reads c ∧ a.determinize.accepts word =
        .error ⟨((a.run .silent).readWord u).states, .character c⟩ ∧
      a.accepts word = false) := by
  refine ⟨fun u _ hu log log' => ?_, fun hw => ?_, fun hw => ?_⟩
  · have hrun := readWord_determinize hu log
    exact ⟨hrun.1, by rw [hrun.2.2.1, states_run]⟩
  · have hrun := readWord_determinize hw .silent
    rw [Dfa.accepts_of_none hrun.1, Dfa.Run.isAccepting, hrun.2.1, hrun.2.2.1, accepts_eq,
      contains_accepting_determinize hrun.2.2.2.1 hrun.2.2.2.2]
  · rcases exists_first_not hw with ⟨u, c, v, rfl, hu, hc⟩
    refine ⟨u, c, v, rfl, hu, hc, ?_, ?_⟩
    · have hrun := readWord_determinize hu .silent
      apply Dfa.accepts_of_some
      -- Up to the character the run goes on, and there it finds no rule.
      rw [Dfa.Run.readWord_append hrun.1, Dfa.Run.readWord_cons_of_error
        (e := ⟨((a.run .silent).readWord u).states, .character c⟩)]
      rw [hrun.2.1, hrun.2.2.1, states_run]
      exact next_determinize_of_not_reads hc
    · rw [Bool.eq_false_iff, ne_eq, accepts_iff]
      rintro ⟨t, _, hpath⟩
      exact hc (hpath.exists_rule c (List.mem_append_right u List.mem_cons_self))

end Nfa

end WordAutomata
