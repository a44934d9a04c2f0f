import WordAutomata.Proofs.Renumbering
import WordAutomata.Proofs.SubsetConstruction
import Mathlib.Algebra.Group.Nat.Defs
import Mathlib.Data.List.Nodup

/-!
# Discovered Sets

What the walk through the sets of states brings back, counted. No set is found
twice, no set is visited twice, and the two lists hold the same sets. So there is
one row of rules for each set that was found, and a row has one rule for each
letter: the rules are as many as the sets times the letters.

The walk has to end because each set that it moves to is made of states of the
automaton, and of these there are only so many sets. With the given ones, which may
be anything, that also bounds the rounds of the loop.

The determinized automaton takes its rules from this walk. It could be made without
a look at its rules, since no two of them share source and letter, and making it
with such a look succeeds.

## Theorems

* `length_choices`, `SortedSet.length_le_of_nodup`: How many sets of elements a list
  has.
* `Graph.perm_nodes_explore`: A walk visits each node that it discovers once.
* `Nfa.length_edges_discover`: How many rules the walk sees.
* `Nfa.size_discovered_le`: How many sets it finds at most.
* `Nfa.mem_rules_determinize`, `mem_states_determinize`: Rules and states of a
  determinized automaton.
* `Nfa.size_states_determinize`: How many states it has.
* `Nfa.discover_exact`: What the walk finds, and what is made of it.
-/

universe u v

namespace WordAutomata

theorem length_choices {α : Type u} (l : List α) : (choices l).length = 2 ^ l.length := by
  induction l with
  | nil => rfl
  | cons a l ih =>
      unfold choices
      rw [List.length_append, List.length_map, ih, List.length_cons]
      omega

/-- Different sets of elements of a list are not more than all of them. -/
theorem SortedSet.length_le_of_nodup {α : Type u} [Ordered α] {sets : List (SortedSet α)}
    {l : List α} (hnodup : sets.Nodup) (h : ∀ X ∈ sets, ∀ a ∈ X, a ∈ l) :
    sets.length ≤ 2 ^ l.length := by
  have hsub : sets ⊆ (choices l).map .ofList := by
    intro X hX
    exact SortedSet.mem_choices (h X hX)
  have hle := hnodup.length_le_of_subset hsub
  rw [List.length_map, length_choices] at hle
  exact hle

namespace Graph

variable {α : Type u} {β : Type v} [Ordered α] {g : Graph α β} {inside : α → Prop}
  {confined : g.Confines inside} {seeds : List α} {hs : ∀ a ∈ seeds, inside a}

/-- Each node that is discovered is visited once. -/
theorem perm_nodes_explore : ((g.explore inside confined seeds hs).visits.map Visit.node).Perm
    (g.explore inside confined seeds hs).discovered.toList := by
  rw [List.perm_ext_iff_of_nodup nodup_nodes_explore (Numbering.nodup_toList _)]
  intro a
  rw [mem_visits_iff_mem_discovered, Numbering.mem_toList]

end Graph

namespace Dfa.Rulebook

variable {S : Type u} [Ordered S]

/-- The rules of a rulebook make a rulebook, and it is the same. -/
theorem ofRules_rules (b : Rulebook S) : ofRules b.rules = .ok b := by
  have htable := b.tabulated
  unfold ofRules
  split
  · rename_i table h
    rw [htable, Except.ok.injEq] at h
    subst h
    rfl
  · rename_i r h
    rw [htable] at h
    cases h

end Dfa.Rulebook

namespace Nfa

variable {S : Type u} [Ordered S] {a : Nfa S} {X Y : SortedSet S} {seeds : List (SortedSet S)}

/-! ## The walk -/

/-- A set of states has a closure of states. -/
theorem mem_states_of_mem_closure (hX : ∀ s ∈ X, s ∈ a.states) {s : S}
    (hs : s ∈ a.rulebook.closure X) : s ∈ a.states := by
  rcases Rulebook.mem_closure_or_target hs with h | h
  · exact hX s h
  · rcases List.mem_map.1 h with ⟨r, hr, rfl⟩
    exact Finite.target_mem_states hr

/-- What a set is moved to is made of targets of rules. -/
theorem mem_states_of_mem_move {s : S} {c : Char} (hs : s ∈ a.move X c) : s ∈ a.states := by
  rcases List.mem_map.1 (Rulebook.mem_rules_of_mem_next hs) with ⟨r, hr, rfl⟩
  exact Finite.target_mem_states hr

theorem mem_states_of_mem_singleton {s : S} (hs : s ∈ SortedSet.singleton a.start) :
    s ∈ a.states := by
  rw [SortedSet.mem_singleton.1 hs]
  exact Finite.start_mem_states

theorem mem_states_of_mem_startSet {s : S} (hs : s ∈ a.startSet) : s ∈ a.states :=
  mem_states_of_mem_closure (fun _ => mem_states_of_mem_singleton) hs

/-- A set that the walk finds is given, or another set that it finds leads there. -/
theorem cases_of_mem_discovered (hX : X ∈ (a.discover seeds).discovered.toList) :
    X ∈ seeds ∨ ∃ Y ∈ (a.discover seeds).discovered.toList, ∃ c, a.Reads c ∧ X = a.move Y c := by
  rcases mem_discovered_discover.1 hX with ⟨s, hs, hreach⟩
  rcases Relation.ReflTransGen.cases_tail hreach with rfl | ⟨Y, hY, hstep⟩
  · exact .inl hs
  · rcases leads_setGraph.1 hstep with ⟨c, hc, rfl⟩
    exact .inr ⟨Y, mem_discovered_discover.2 ⟨s, hs, hY⟩, c, Finite.mem_alphabet.1 hc, rfl⟩

/-- The visits are one for each set that the walk finds. -/
theorem perm_nodes_discover (seeds : List (SortedSet S)) :
    ((a.discover seeds).visits.map Visit.node).Perm (a.discover seeds).discovered.toList := by
  unfold discover
  exact Graph.perm_nodes_explore

theorem length_visits_discover (seeds : List (SortedSet S)) :
    (a.discover seeds).visits.length = (a.discover seeds).discovered.size := by
  have hlength := (perm_nodes_discover (a := a) seeds).length_eq
  rw [List.length_map, Numbering.length_toList] at hlength
  exact hlength

/-- The rules are the rows of the sets that are visited. -/
theorem edges_discover (seeds : List (SortedSet S)) : (a.discover seeds).edges =
    ((a.discover seeds).visits.map Visit.node).flatMap (a.setRules a.rulebook.alphabet.toList) := by
  unfold Exploration.edges
  rw [List.flatMap_map]
  apply List.flatMap_congr
  intro v hv
  unfold discover at hv
  exact Graph.edges_of_mem_explore hv

/-- There is one rule for each set that the walk finds and each letter. -/
theorem length_edges_discover (seeds : List (SortedSet S)) : (a.discover seeds).edges.length =
    (a.discover seeds).discovered.size * a.rulebook.alphabet.size := by
  have hrow : ∀ X, (a.setRules a.rulebook.alphabet.toList X).length = a.rulebook.alphabet.size := by
    intro X
    exact List.length_map _
  rw [edges_discover, List.length_flatMap]
  simp only [hrow, List.map_const', List.sum_replicate_nat, List.length_map,
    length_visits_discover]

theorem nodup_edges_discover (seeds : List (SortedSet S)) : (a.discover seeds).edges.Nodup :=
  List.Nodup.of_map _ nodup_place_edges

/-- The walk finds no more sets than were given and can be made of states. -/
theorem size_discovered_le (seeds : List (SortedSet S)) :
    (a.discover seeds).discovered.size ≤ seeds.length + 2 ^ a.states.size := by
  rw [← Numbering.length_toList]
  have hsub : (a.discover seeds).discovered.toList ⊆
      seeds ++ (choices a.states.toList).map .ofList := by
    intro X hX
    rw [List.mem_append]
    -- A set that is not given is what another one was moved to.
    rcases cases_of_mem_discovered hX with hX | ⟨Y, _, c, _, rfl⟩
    · exact .inl hX
    · exact .inr (SortedSet.mem_choices fun s hs => mem_states_of_mem_move hs)
  have hle := (a.discover seeds).discovered.nodup_toList.length_le_of_subset hsub
  rw [List.length_append, List.length_map, length_choices] at hle
  exact hle

/-! ## The determinized automaton -/

/-- There is a rule for each set that the walk finds and each letter, and no other. -/
theorem mem_rules_determinize {symbol : Symbol} :
    ⟨X, symbol, Y⟩ ∈ a.determinize.rulebook.rules ↔
      a.Found X ∧ ∃ c, a.Reads c ∧ symbol = .character c ∧ Y = a.move X c := by
  rw [rules_determinize, mem_edges_discover]
  constructor
  · rintro ⟨_, hX, c, hc, heq⟩
    cases heq
    exact ⟨hX, c, hc, rfl, rfl⟩
  · rintro ⟨hX, c, hc, rfl, rfl⟩
    exact ⟨X, hX, c, hc, rfl⟩

/-- A set that was found is the start set, or another one leads there. -/
theorem Found.cases (hX : a.Found X) :
    X = a.startSet ∨ ∃ Y c, a.Found Y ∧ a.Reads c ∧ X = a.move Y c := by
  rcases cases_of_mem_discovered hX with hX | ⟨Y, hY, c, hc, hmove⟩
  · exact .inl (List.mem_singleton.1 hX)
  · exact .inr ⟨Y, c, hY, hc, hmove⟩

theorem closure_move (X : SortedSet S) (c : Char) :
    a.rulebook.closure (a.move X c) = a.move X c :=
  Rulebook.closure_next

/-- A set that was found is closed. -/
theorem Found.closure_eq (hX : a.Found X) : a.rulebook.closure X = X := by
  rcases hX.cases with rfl | ⟨Y, c, _, _, rfl⟩
  · exact Rulebook.closure_closure
  · exact closure_move Y c

theorem Found.mem_states (hX : a.Found X) {s : S} (hs : s ∈ X) : s ∈ a.states := by
  rcases hX.cases with rfl | ⟨Y, c, _, _, rfl⟩
  · exact mem_states_of_mem_startSet hs
  · exact mem_states_of_mem_move hs

/-- The states are the sets that the walk finds. -/
theorem mem_states_determinize : X ∈ a.determinize.states ↔ a.Found X := by
  rw [Dfa.mem_states]
  constructor
  · rintro (rfl | ⟨r, hr, rfl | rfl⟩ | hX)
    · exact found_startSet
    · exact (mem_rules_determinize.1 hr).1
    · rcases mem_rules_determinize.1 hr with ⟨hsource, c, hc, _, htarget⟩
      rw [htarget]
      exact found_move hsource hc
    · have hfound := SortedSet.mem_ofList.1 hX
      exact (List.mem_filter.1 hfound).1
  · intro hX
    -- What leads to a set that was found is a rule, and its target is a state.
    rcases hX.cases with rfl | ⟨Y, c, hY, hc, rfl⟩
    · exact .inl rfl
    · have hrule : ⟨Y, .character c, a.move Y c⟩ ∈ a.determinize.rulebook.rules :=
        mem_rules_determinize.2 ⟨hY, c, hc, rfl, rfl⟩
      exact .inr (.inl ⟨_, hrule, .inr rfl⟩)

/-- The accept states are the sets that were found and hold an accept state. -/
theorem mem_accepting_determinize :
    X ∈ a.determinize.accepting ↔ a.Found X ∧ ∃ s ∈ X, s ∈ a.accepting := by
  rw [← SortedSet.intersects_iff]
  constructor
  · intro hX
    have hfound : a.Found X := mem_states_determinize.1 (Finite.mem_states_of_mem_accepting hX)
    refine ⟨hfound, ?_⟩
    rw [← SortedSet.contains_iff, contains_accepting_determinize hfound hfound.closure_eq] at hX
    exact hX
  · rintro ⟨hfound, hX⟩
    rw [← SortedSet.contains_iff, contains_accepting_determinize hfound hfound.closure_eq]
    exact hX

/-- There are as many states as sets that were found. -/
theorem size_states_determinize (a : Nfa S) :
    a.determinize.states.size = (a.discover [a.startSet]).discovered.size := by
  apply SortedSet.size_eq_size
  intro X
  rw [mem_states_determinize, Found, Numbering.mem_toList]

/-- All states are sets of states, of which there are only so many. -/
theorem size_states_determinize_le (a : Nfa S) :
    a.determinize.states.size ≤ 2 ^ a.states.size := by
  apply SortedSet.length_le_of_nodup (SortedSet.nodup_toList _)
  intro X hX s hs
  exact (mem_states_determinize.1 hX).mem_states hs

theorem length_rules_determinize (a : Nfa S) : a.determinize.rulebook.rules.length =
    a.determinize.states.size * a.rulebook.alphabet.size := by
  rw [rules_determinize, length_edges_discover, size_states_determinize]

/-- Each state has a rule, unless there is only one state. -/
theorem size_numbering_determinize_le (a : Nfa S) :
    a.determinize.numbering.size ≤ max 1 a.determinize.rulebook.rules.length := by
  have hfound : ∀ X ∈ a.determinize.numbering.toList, a.Found X := fun X hX =>
    mem_states_determinize.1 (Dfa.mem_numbering.1 (Numbering.mem_toList.1 hX))
  have hnodup := a.determinize.numbering.nodup_toList
  rw [← Numbering.length_toList]
  by_cases hletter : ∃ c, a.Reads c
  · -- The rules for one letter alone have all states as their sources.
    rcases hletter with ⟨c, hc⟩
    have hsub : a.determinize.numbering.toList ⊆
        a.determinize.rulebook.rules.map Finite.Rule.source := by
      intro X hX
      refine List.mem_map.2 ⟨⟨X, .character c, a.move X c⟩, ?_, rfl⟩
      exact mem_rules_determinize.2 ⟨hfound X hX, c, hc, rfl, rfl⟩
    have hle := hnodup.length_le_of_subset hsub
    rw [List.length_map] at hle
    omega
  · -- Without letters no set leads to another one.
    have hsub : a.determinize.numbering.toList ⊆ [a.startSet] := by
      intro X hX
      rcases (hfound X hX).cases with rfl | ⟨_, c, _, hc, _⟩
      · exact List.mem_singleton_self _
      · exact absurd ⟨c, hc⟩ hletter
    have hle := hnodup.length_le_of_subset hsub
    rw [List.length_singleton] at hle
    omega

/-- The walk from some sets finds what letters lead to from them, each set once, in
    as many rounds as there are sets, and of these there are only so many. It sees
    exactly one rule for each set that it finds and each letter. So the determinized
    automaton is one: its rules can be looked up. Its states are the sets that the
    walk finds from the start, all of them closed sets of states, each with a rule
    for each letter, and it accepts in those that hold an accept state. -/
theorem discover_exact (a : Nfa S) :
    (∀ seeds : List (SortedSet S),
      (a.discover seeds).discovered.toList.Nodup ∧
      (∀ X, X ∈ (a.discover seeds).discovered.toList ↔ ∃ Z ∈ seeds,
        Relation.ReflTransGen (fun Y Y' => ∃ c ∈ a.rulebook.alphabet, Y' = a.move Y c) Z X) ∧
      (a.discover seeds).visits.length = (a.discover seeds).discovered.size ∧
      (a.discover seeds).discovered.size ≤ seeds.length + 2 ^ a.states.size ∧
      (a.discover seeds).edges.Nodup ∧
      (∀ r, r ∈ (a.discover seeds).edges ↔ ∃ X ∈ (a.discover seeds).discovered.toList,
        ∃ c ∈ a.rulebook.alphabet, r = ⟨X, .character c, a.move X c⟩)) ∧
    Dfa.Rulebook.ofRules (a.discover [a.startSet]).edges = .ok a.determinize.rulebook ∧
    (∀ X, X ∈ a.determinize.states ↔ X ∈ (a.discover [a.startSet]).discovered.toList) ∧
    (∀ X ∈ a.determinize.states, (∀ s ∈ X, s ∈ a.states) ∧
      ∀ s ∈ X, ∀ t, ⟨s, .epsilon, t⟩ ∈ a.rulebook.rules → t ∈ X) ∧
    a.determinize.states.size ≤ 2 ^ a.states.size ∧
    a.determinize.rulebook.rules.length =
      a.determinize.states.size * a.rulebook.alphabet.size ∧
    (∀ X, X ∈ a.determinize.accepting ↔
      X ∈ (a.discover [a.startSet]).discovered.toList ∧ ∃ s ∈ X, s ∈ a.accepting) := by
  refine ⟨fun seeds => ⟨Numbering.nodup_toList _, fun X => ?_, length_visits_discover seeds,
    size_discovered_le seeds, nodup_edges_discover seeds, fun r => ?_⟩, ?_,
    fun X => mem_states_determinize, fun X hX => ?_, size_states_determinize_le a,
    length_rules_determinize a, fun X => mem_accepting_determinize⟩
  · have hleads : (a.setGraph a.rulebook.alphabet.toList).Leads =
        fun Y Y' => ∃ c ∈ a.rulebook.alphabet, Y' = a.move Y c := by
      funext Y Y'
      exact propext leads_setGraph
    rw [mem_discovered_discover, Graph.Reachable, hleads]
  · rw [mem_edges_discover]
    simp only [Rulebook.alphabet, Finite.mem_alphabet]
    rfl
  · rw [← rules_determinize]
    exact Dfa.Rulebook.ofRules_rules _
  · have hfound := mem_states_determinize.1 hX
    refine ⟨fun s hs => hfound.mem_states hs, fun s hs t hst => ?_⟩
    -- One epsilon rule is a path that reads nothing, and a closed set holds its end.
    rw [← hfound.closure_eq, Rulebook.mem_closure]
    exact ⟨s, hs, .free hst (.refl t)⟩

end Nfa

end WordAutomata
