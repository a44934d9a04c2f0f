import WordAutomata.Nfa.Run
import WordAutomata.Dfa.Basic
import WordAutomata.Timing

/-!
# Determinizing

The sets of states of a nondeterministic automaton, taken as states of a
deterministic one. Starting from the closure of the start state, each set is
moved by each character of the alphabet, and the sets that turn up on the way
are the states. The empty set is one of them where it turns up, so every set
has a rule for every character.

The sets are found by the general walk through a graph. It ends because a set
that was moved holds targets of rules only, and there are finitely many sets
of those. It visits no set twice, so no two rules share source and character.

## Main definitions

* `Nfa.move`: The set reached from a set by a character.
* `Nfa.setGraph`: The graph of the sets, whose edges are rules between them.
* `Nfa.discover`: The walk through this graph from some sets.
* `Nfa.determinize`: The deterministic automaton.

## Theorems

* `Nfa.nodup_place_edges`: The rules between sets are deterministic.
-/

universe u

namespace WordAutomata

/-- The lists whose elements are taken from a list, in order. -/
def choices {α : Type u} : List α → List (List α)
  | [] => [[]]
  | a :: l => choices l ++ (choices l).map (a :: ·)

theorem filter_mem_choices {α : Type u} (p : α → Bool) (l : List α) :
    l.filter p ∈ choices l := by
  induction l with
  | nil => simp [choices]
  | cons a l ih =>
    simp only [choices, List.mem_append, List.mem_map, List.filter_cons]
    split
    · exact .inr ⟨_, ih, rfl⟩
    · exact .inl ih

/-- There are finitely many sets of elements of a list. -/
theorem SortedSet.mem_choices {α : Type u} [Ordered α] {s : SortedSet α} {l : List α}
    (h : ∀ a ∈ s, a ∈ l) : s ∈ (choices l).map SortedSet.ofList := by
  refine List.mem_map.2 ⟨_, filter_mem_choices (fun a => s.contains a) l, ?_⟩
  refine SortedSet.ext_mem fun a => ?_
  rw [SortedSet.mem_ofList, List.mem_filter, SortedSet.contains_iff]
  exact ⟨And.right, fun ha => ⟨h a ha, ha⟩⟩

namespace Nfa

variable {S : Type u} [Ordered S]

/-- The states in which the automaton can be after the character, if it was in
    one of the given states, or in one that epsilon rules reach from these. -/
def move (a : Nfa S) (states : SortedSet S) (c : Char) : SortedSet S :=
  a.rulebook.next (a.rulebook.closure states) c

/-- The deterministic rules of a set of states, one for each of the letters. -/
def setRules (a : Nfa S) (letters : List Char) (states : SortedSet S) :
    List (Finite.Rule (SortedSet S)) :=
  letters.map fun c => ⟨states, .character c, a.move states c⟩

/-- The graph of the sets of states, with the rules between them as edges. -/
def setGraph (a : Nfa S) (letters : List Char) :
    Graph (SortedSet S) (Finite.Rule (SortedSet S)) where
  edges := a.setRules letters
  target? r := some r.target

/-- The sets that can turn up: those given, and the sets of targets of rules. -/
def Reachable (a : Nfa S) (seeds : List (SortedSet S)) (states : SortedSet S) : Prop :=
  states ∈ seeds ∨ ∀ s ∈ states, s ∈ a.rulebook.rules.map Finite.Rule.target

theorem confines_setGraph (a : Nfa S) (letters : List Char) (seeds : List (SortedSet S)) :
    (a.setGraph letters).Confines (a.Reachable seeds) where
  closed X _ Y hY := by
    simp only [Graph.successors, setGraph, setRules, List.filterMap_map,
      List.mem_filterMap] at hY
    obtain ⟨c, -, hc⟩ := hY
    obtain rfl := Option.some.inj hc
    exact .inr fun s hs => Rulebook.mem_rules_of_mem_next hs
  finite := by
    refine ⟨seeds ++ (choices (a.rulebook.rules.map Finite.Rule.target)).map .ofList, ?_⟩
    rintro X (hX | hX)
    · exact List.mem_append_left _ hX
    · exact List.mem_append_right _ (SortedSet.mem_choices hX)

/-- The walk through the sets of states that are reached from the given ones. -/
def discover (a : Nfa S) (seeds : List (SortedSet S)) :
    Exploration (SortedSet S) (Finite.Rule (SortedSet S)) :=
  let letters := a.rulebook.alphabet.toList
  (a.setGraph letters).explore _ (a.confines_setGraph letters seeds) seeds fun _ h => .inl h

theorem nodup_place_setRules {a : Nfa S} {letters : List Char} (distinct : letters.Nodup)
    (states : SortedSet S) : ((a.setRules letters states).map Dfa.Rulebook.place).Nodup := by
  unfold List.Nodup at distinct ⊢
  rw [setRules, List.map_map, List.pairwise_map]
  refine distinct.imp fun {c d} hne h => hne ?_
  simpa [Dfa.Rulebook.place] using h

/-- The rules between the sets are deterministic: no set is visited twice, and
    a visit sees each character once. -/
theorem nodup_place_edges {a : Nfa S} {seeds : List (SortedSet S)} :
    ((a.discover seeds).edges.map Dfa.Rulebook.place).Nodup := by
  have letters : a.rulebook.alphabet.toList.Nodup :=
    a.rulebook.alphabet.ascending.imp fun {c d} h => by
      rintro rfl
      simp at h
  have own : ∀ v ∈ (a.discover seeds).visits,
      v.edges = a.setRules a.rulebook.alphabet.toList v.node := fun v hv => by
    rw [discover] at hv
    exact Graph.edges_of_mem_explore hv
  have once : ((a.discover seeds).visits.map Visit.node).Nodup := by
    rw [discover]
    exact Graph.nodup_nodes_explore
  unfold List.Nodup at once ⊢
  rw [List.pairwise_map] at once
  rw [Exploration.edges, List.map_flatMap, List.pairwise_flatMap]
  -- Within a visit the characters differ, between two visits the sources do.
  refine ⟨fun v hv => ?_, once.imp_of_mem fun {v w} hv hw hne p hp q hq => ?_⟩
  · rw [own v hv]
    exact nodup_place_setRules letters v.node
  · rw [own v hv] at hp
    rw [own w hw] at hq
    simp only [setRules, List.map_map, List.mem_map, Function.comp_apply,
      Dfa.Rulebook.place] at hp hq
    obtain ⟨c, -, rfl⟩ := hp
    obtain ⟨d, -, rfl⟩ := hq
    exact fun h => hne (Prod.mk.inj h).1

/-- The deterministic automaton over the sets that a walk has found. -/
def ofDiscovery (a : Nfa S) (found : Exploration (SortedSet S) (Finite.Rule (SortedSet S)))
    (distinct : (found.edges.map Dfa.Rulebook.place).Nodup) : Dfa (SortedSet S) where
  start := a.startSet
  accepting := .ofList (found.discovered.toList.filter fun states =>
    a.isAccepting (a.rulebook.closure states))
  rulebook := .ofDistinct found.edges distinct

/-- The deterministic automaton whose states are the sets of states that are
    reached from the start. -/
def determinize (a : Nfa S) : Dfa (SortedSet S) :=
  a.ofDiscovery (a.discover [a.startSet]) nodup_place_edges

/-! ## Log -/

variable [Describe S]

/-- Traces the rules of a set, as reading their characters would. -/
def noteRules (log : Log) (rules : List (Finite.Rule (SortedSet S))) : Log :=
  log.noteEach .trace (fun r => "--[" ++ r.symbol.text ++ "]-> " ++ describe r.target) rules

/-- Traces a visit: the rules of the set, and then the sets it discovered. -/
def noteVisit (log : Log) (v : Visit (SortedSet S) (Finite.Rule (SortedSet S))) : Log :=
  (noteRules log v.edges).noteEach .trace (fun states => "Discovered " ++ describe states)
    v.fresh.reverse

/-- Traces a walk, visit by visit. -/
def noteDiscovery (log : Log)
    (found : Exploration (SortedSet S) (Finite.Rule (SortedSet S))) : Log :=
  if log.keeps .trace then found.visits.foldl noteVisit log else log

/-- Notes a walk and the time it took. -/
def noteDeterminized (found : Exploration (SortedSet S) (Finite.Rule (SortedSet S)))
    (elapsed : Duration) (log : Log) : Log :=
  (noteDiscovery log found).note .debug fun _ =>
    phaseText "subset construction" elapsed ++ ", " ++ describe found.edges.length ++ " rules"

/-- Determinizes, with a log of the walk and of the time it took. -/
def determinizeNoting (a : Nfa S) (elapsed : Duration) (log : Log) : Dfa (SortedSet S) × Log :=
  let found := a.discover [a.startSet]
  (a.ofDiscovery found nodup_place_edges, noteDeterminized found elapsed log)

theorem determinizeNoting_fst {a : Nfa S} {elapsed : Duration} {log : Log} :
    (a.determinizeNoting elapsed log).1 = a.determinize := rfl

end Nfa

end WordAutomata
