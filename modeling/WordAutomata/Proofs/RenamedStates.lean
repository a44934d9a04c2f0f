import WordAutomata.Proofs.DiscoveredSets
import WordAutomata.Proofs.RenamedWalks

/-!
# Renamed States

Determinizing and then numbering the states gives an automaton in which nothing is
left of the names that the states had. The names decide how a set of states is
sorted, so a renaming changes the sets and the order among them. It does not
change which sets there are, in which order the walk finds them, and in which order
its rules are listed; and only this order decides the numbers.

Nor is anything left of the order of the given rules, or of how often a rule was
given. All that is asked of the rules is what they reach, and which letters they
read.

Accept states are numbered last, in their own order, which does depend on their
names. It does no harm. Those that were met on the rules have their numbers by then,
and the others get all numbers that are left, in one order or another.

## Main definitions

* `SortedSet.image`: A set with other names for its elements.
* `Dfa.Renaming`, `Nfa.Renaming`: An automaton with other names for its states.
* `Dfa.met`: The numbers without those of accept states that no rule meets.

## Theorems

* `Dfa.mem_accepting_renumber_iff`: The numbers of the accept states.
* `Dfa.Renaming.renumber_eq`: Renamed automata get the same numbers.
* `Nfa.Renaming.closure_image`, `move_image`: Renaming commutes with what a run does.
* `Nfa.Renaming.determinize`: Renamed automata are renamed when determinized.
* `Nfa.Renaming.renumber_determinize`: With numbers for states they are the same.
-/

universe u v

namespace WordAutomata

namespace SortedSet

variable {α : Type u} {β : Type v} [Ordered α] [Ordered β] {f : α → β} {s t : SortedSet α}
  {P : α → Prop}

/-- The set with other names for its elements. -/
def image (f : α → β) (s : SortedSet α) : SortedSet β := .ofList (s.toList.map f)

theorem mem_image {b : β} : b ∈ s.image f ↔ ∃ a, a ∈ s ∧ f a = b := by
  rw [image, mem_ofList, List.mem_map]
  rfl

theorem image_singleton (f : α → β) (a : α) : (singleton a).image f = singleton (f a) := by
  apply ext_mem
  intro b
  simp only [mem_image, mem_singleton, exists_eq_left]
  exact eq_comm

section

variable (hapart : ∀ a b, P a → P b → f a = f b → a = b)
include hapart

theorem apply_mem_image_iff (hs : ∀ a ∈ s, P a) {a : α} (ha : P a) : f a ∈ s.image f ↔ a ∈ s := by
  rw [mem_image]
  constructor
  · rintro ⟨b, hb, hba⟩
    rw [← hapart b a (hs b hb) ha hba]
    exact hb
  · intro hmem
    exact ⟨a, hmem, rfl⟩

/-- If different elements get different names, then so do different sets. -/
theorem eq_of_image_eq (hs : ∀ a ∈ s, P a) (ht : ∀ a ∈ t, P a) (h : s.image f = t.image f) :
    s = t := by
  apply ext_mem
  intro a
  constructor
  · intro ha
    rw [← apply_mem_image_iff hapart ht (hs a ha), ← h]
    exact (apply_mem_image_iff hapart hs (hs a ha)).2 ha
  · intro ha
    rw [← apply_mem_image_iff hapart hs (ht a ha), h]
    exact (apply_mem_image_iff hapart ht (ht a ha)).2 ha

end

end SortedSet

theorem Finite.ends_map {S : Type u} {T : Type v} (f : S → T) (rules : List (Finite.Rule S)) :
    Finite.ends (rules.map (Finite.Rule.map f)) = (Finite.ends rules).map f := by
  unfold Finite.ends
  rw [List.flatMap_map, List.map_flatMap]
  rfl

variable {S : Type u} {T : Type v} [Ordered S] [Ordered T] {f : S → T}

/-! ## Deterministic automata -/

namespace Dfa

/-- A rulebook is determined by its rules. -/
theorem Rulebook.eq_of_rules_eq {b b' : Rulebook S} (h : b.rules = b'.rules) : b = b' := by
  rcases b with ⟨rules, table, htable⟩
  rcases b' with ⟨rules', table', htable'⟩
  obtain rfl : rules = rules' := h
  obtain rfl : table = table' := Except.ok.inj (htable.symm.trans htable')
  rfl

/-- The second automaton is the first one with other names for its states. -/
structure Renaming (f : S → T) (a : Dfa S) (b : Dfa T) : Prop where
  apart : ∀ s t, s ∈ a.states → t ∈ a.states → f s = f t → s = t
  start_eq : b.start = f a.start
  rules_eq : b.rulebook.rules = a.rulebook.rules.map (Finite.Rule.map f)
  accepting_eq : b.accepting = a.accepting.image f

variable {a : Dfa S} {b : Dfa T}

/-- The numbers that are given out before the accept states are come to. -/
def met (a : Dfa S) : Numbering S :=
  (Numbering.empty.insertAll (a.start :: Finite.ends a.rulebook.rules)).1

theorem mem_met {s : S} : s ∈ a.met ↔ s = a.start ∨ s ∈ Finite.ends a.rulebook.rules := by
  rw [met, Numbering.mem_insertAll, List.mem_cons]
  simp only [Numbering.not_mem_empty, false_or]

/-- The accept states come last and change no number that was given before. -/
theorem met_prefix (a : Dfa S) : a.met.toList <+: a.numbering.toList := by
  rw [met, numbering, Numbering.fst_insertAll, Numbering.fst_insertAll, ← List.cons_append,
    List.foldl_append]
  exact Numbering.toList_prefix_grow a.accepting.toList

theorem getElem?_numbering {i : Nat} (hi : i < a.met.size) :
    a.numbering.toList[i]? = a.met.toList[i]? := by
  rcases a.met_prefix with ⟨back, hback⟩
  rw [← Numbering.length_toList] at hi
  rw [← hback, List.getElem?_append_left hi]

theorem numberOf_met {s : S} (hs : s ∈ a.met) :
    numberOf a.numbering s = numberOf a.met s :=
  numberOf_of_prefix a.met_prefix hs

/-- The accept states that were met before keep their numbers. The others fill up the
    numbers from there on, and which of them has which number is all that their own
    order decides. -/
theorem mem_accepting_renumber_iff {i : StateIndex} : i ∈ a.renumber.accepting ↔
    (∃ s ∈ a.accepting, s ∈ a.met ∧ numberOf a.met s = i) ∨
      (a.met.size ≤ i.value ∧ i.value < a.numbering.size) := by
  rw [mem_accepting_renumber]
  constructor
  · rintro ⟨s, hs, rfl⟩
    by_cases hmet : s ∈ a.met
    · exact .inl ⟨s, hs, hmet, (numberOf_met hmet).symm⟩
    · have hnumber : s ∈ a.numbering := mem_numbering.2 (Finite.mem_states_of_mem_accepting hs)
      refine .inr ⟨?_, numberOf_lt hnumber⟩
      -- A smaller number would be the place of a state that was met.
      by_contra hlt
      have hplace := (numberOf_eq_iff hnumber).1 rfl
      rw [getElem?_numbering (Nat.lt_of_not_le hlt)] at hplace
      exact hmet (Numbering.mem_toList.1 (List.mem_of_getElem? hplace))
  · rintro (⟨s, hs, hmet, rfl⟩ | ⟨hle, hlt⟩)
    · exact ⟨s, hs, numberOf_met hmet⟩
    · rw [← Numbering.length_toList] at hlt
      have hplace := List.getElem?_eq_getElem hlt
      have hnumber : a.numbering.toList[i.value] ∈ a.numbering :=
        Numbering.mem_toList.1 (List.getElem_mem hlt)
      have hnumberOf := (numberOf_eq_iff hnumber).2 hplace
      refine ⟨_, ?_, hnumberOf⟩
      -- The state with this number is met neither first nor on a rule.
      have hmet : ¬ a.numbering.toList[i.value] ∈ a.met := by
        intro hmet
        have hbelow := numberOf_lt hmet
        rw [← numberOf_met hmet, hnumberOf] at hbelow
        omega
      rcases mem_states.1 (mem_numbering.1 hnumber) with hs | ⟨r, hr, hs⟩ | hs
      · exact absurd (mem_met.2 (.inl hs)) hmet
      · exact absurd (mem_met.2 (.inr (Finite.mem_ends.2 ⟨r, hr, hs⟩))) hmet
      · exact hs

theorem numberOf_of_renames {P : S → Prop} {n : Numbering S} {m : Numbering T}
    (h : n.Renames P f m) {s : S} (hs : s ∈ n) : numberOf m (f s) = numberOf n s := by
  have hplace := (numberOf_eq_iff hs).1 rfl
  have hmem : f s ∈ m := by
    rw [← Numbering.mem_toList, h.toList_eq]
    exact List.mem_map_of_mem (Numbering.mem_toList.2 hs)
  rw [numberOf_eq_iff hmem, h.toList_eq, List.getElem?_map, hplace]
  rfl

namespace Renaming

variable (h : a.Renaming f b)
include h

/-- The states of a renamed automaton are the states under their new names. -/
theorem mem_states_iff {t : T} : t ∈ b.states ↔ ∃ s ∈ a.states, f s = t := by
  simp only [mem_states, h.start_eq, h.rules_eq, h.accepting_eq, SortedSet.mem_image, List.mem_map]
  constructor
  · rintro (rfl | ⟨_, ⟨r, hr, rfl⟩, rfl | rfl⟩ | ⟨s, hs, rfl⟩)
    · exact ⟨a.start, .inl rfl, rfl⟩
    · exact ⟨r.source, .inr (.inl ⟨r, hr, .inl rfl⟩), rfl⟩
    · exact ⟨r.target, .inr (.inl ⟨r, hr, .inr rfl⟩), rfl⟩
    · exact ⟨s, .inr (.inr hs), rfl⟩
  · rintro ⟨s, rfl | ⟨r, hr, rfl | rfl⟩ | hs, rfl⟩
    · exact .inl rfl
    · exact .inr (.inl ⟨_, ⟨r, hr, rfl⟩, .inl rfl⟩)
    · exact .inr (.inl ⟨_, ⟨r, hr, rfl⟩, .inr rfl⟩)
    · exact .inr (.inr ⟨s, hs, rfl⟩)

/-- The states of a renamed automaton are met in the same order. -/
theorem met_renames : a.met.Renames (· ∈ a.states) f b.met := by
  have hheld : ∀ s ∈ a.start :: Finite.ends a.rulebook.rules, s ∈ a.states := by
    intro s hs
    rcases List.mem_cons.1 hs with rfl | hs
    · exact Finite.start_mem_states
    · exact mem_states.2 (.inr (.inl (Finite.mem_ends.1 hs)))
  unfold met
  rw [h.start_eq, h.rules_eq, Finite.ends_map, ← List.map_cons]
  exact ((Numbering.renames_empty _ f).insertAll h.apart hheld).1

/-- It has as many states. -/
theorem size_numbering_eq : b.numbering.size = a.numbering.size := by
  have hnodup : (a.numbering.toList.map f).Nodup := by
    refine a.numbering.nodup_toList.map_on fun s hs t ht => ?_
    exact h.apart s t (mem_numbering.1 (Numbering.mem_toList.1 hs))
      (mem_numbering.1 (Numbering.mem_toList.1 ht))
  have hperm : b.numbering.toList.Perm (a.numbering.toList.map f) := by
    rw [List.perm_ext_iff_of_nodup b.numbering.nodup_toList hnodup]
    intro t
    simp only [List.mem_map, Numbering.mem_toList, mem_numbering, h.mem_states_iff]
  rw [← Numbering.length_toList, ← Numbering.length_toList, hperm.length_eq, List.length_map]

theorem numberOf_met_eq {s : S} (hs : s ∈ a.met) : numberOf b.met (f s) = numberOf a.met s :=
  numberOf_of_renames h.met_renames hs

/-- The accept states get the same numbers, taken together. -/
theorem accepting_renumber_eq : b.renumber.accepting = a.renumber.accepting := by
  have hsize : b.met.size = a.met.size := by
    rw [← Numbering.length_toList, ← Numbering.length_toList, h.met_renames.toList_eq,
      List.length_map]
  apply SortedSet.ext_mem
  intro i
  rw [mem_accepting_renumber_iff, mem_accepting_renumber_iff, hsize, h.size_numbering_eq]
  -- Those that were met have the same numbers, and the others have all that are left.
  refine or_congr_left ?_
  constructor
  · rintro ⟨t, ht, hmet, rfl⟩
    rw [h.accepting_eq, SortedSet.mem_image] at ht
    rcases ht with ⟨s, hs, rfl⟩
    rw [h.met_renames.mem_iff h.apart (Finite.mem_states_of_mem_accepting hs)] at hmet
    exact ⟨s, hs, hmet, (h.numberOf_met_eq hmet).symm⟩
  · rintro ⟨s, hs, hmet, rfl⟩
    refine ⟨f s, ?_, ?_, h.numberOf_met_eq hmet⟩
    · rw [h.accepting_eq, SortedSet.mem_image]
      exact ⟨s, hs, rfl⟩
    · exact (h.met_renames.mem_iff h.apart (Finite.mem_states_of_mem_accepting hs)).2 hmet

/-- A renamed automaton becomes the same automaton when its states get numbers. -/
theorem renumber_eq : b.renumber = a.renumber := by
  have hnumber : ∀ s ∈ a.met, numberOf b.numbering (f s) = numberOf a.numbering s := by
    intro s hs
    have hs' : f s ∈ b.met := by
      rw [h.met_renames.mem_iff h.apart (h.met_renames.held s hs)]
      exact hs
    rw [numberOf_met hs', numberOf_met hs, h.numberOf_met_eq hs]
  have hstart : b.renumber.start = a.renumber.start := by
    rw [start_renumber, start_renumber]
  have hrules : b.renumber.rulebook.rules = a.renumber.rulebook.rules := by
    rw [rules_renumber, rules_renumber, h.rules_eq, List.map_map]
    apply List.map_congr_left
    intro r hr
    have hsource : r.source ∈ a.met := mem_met.2 (.inr (Finite.mem_ends.2 ⟨r, hr, .inl rfl⟩))
    have htarget : r.target ∈ a.met := mem_met.2 (.inr (Finite.mem_ends.2 ⟨r, hr, .inr rfl⟩))
    simp only [Function.comp_apply, Finite.Rule.map, hnumber _ hsource, hnumber _ htarget]
  have haccepting := h.accepting_renumber_eq
  have hbook := Rulebook.eq_of_rules_eq hrules
  -- Start, accept states and rulebook are all there is to an automaton.
  generalize b.renumber = x at *
  generalize a.renumber = y at *
  rcases x with ⟨start, accepting, rulebook⟩
  rcases y with ⟨start', accepting', rulebook'⟩
  simp only at hstart haccepting hbook
  rw [hstart, haccepting, hbook]

end Renaming

end Dfa

/-! ## Nondeterministic automata -/

namespace Nfa

/-- The second automaton is the first one with other names for its states. Its rules
    may come in another order, and any number of times. -/
structure Renaming (f : S → T) (a : Nfa S) (b : Nfa T) : Prop where
  apart : ∀ s t, s ∈ a.states → t ∈ a.states → f s = f t → s = t
  start_eq : b.start = f a.start
  mem_rules : ∀ r, r ∈ b.rulebook.rules ↔ r ∈ a.rulebook.rules.map (Finite.Rule.map f)
  accepting_eq : b.accepting = a.accepting.image f

variable {a : Nfa S} {b : Nfa T} {X : SortedSet S}

namespace Renaming

variable (h : a.Renaming f b)
include h

theorem path_iff {s : S} (hs : s ∈ a.states) {w : List Char} {t : T} :
    Finite.Path b.rulebook.rules (f s) w t ↔
      ∃ t', t = f t' ∧ t' ∈ a.states ∧ Finite.Path a.rulebook.rules s w t' := by
  have hends : ∀ r ∈ a.rulebook.rules, r.source ∈ a.states ∧ r.target ∈ a.states := by
    intro r hr
    exact ⟨Finite.source_mem_states hr, Finite.target_mem_states hr⟩
  rw [← Finite.path_map_iff hends h.apart hs]
  -- Both lists hold the same rules, so they have the same paths.
  constructor
  · exact Finite.Path.mono fun r hr => (h.mem_rules r).1 hr
  · exact Finite.Path.mono fun r hr => (h.mem_rules r).2 hr

theorem closure_image (hX : ∀ s ∈ X, s ∈ a.states) :
    b.rulebook.closure (X.image f) = (a.rulebook.closure X).image f := by
  apply SortedSet.ext_mem
  intro t
  rw [Rulebook.mem_closure, SortedSet.mem_image]
  constructor
  · rintro ⟨s', hs', hpath⟩
    rcases SortedSet.mem_image.1 hs' with ⟨s, hs, rfl⟩
    rcases (h.path_iff (hX s hs)).1 hpath with ⟨t', rfl, _, hpath'⟩
    exact ⟨t', Rulebook.mem_closure.2 ⟨s, hs, hpath'⟩, rfl⟩
  · rintro ⟨t', ht', rfl⟩
    rcases Rulebook.mem_closure.1 ht' with ⟨s, hs, hpath⟩
    refine ⟨f s, SortedSet.mem_image.2 ⟨s, hs, rfl⟩, (h.path_iff (hX s hs)).2 ⟨t', rfl, ?_, hpath⟩⟩
    exact mem_states_of_mem_closure hX ht'

theorem step_image (hX : ∀ s ∈ X, s ∈ a.states) (x : Symbol) :
    b.rulebook.step (X.image f) x = (a.rulebook.step X x).image f := by
  apply SortedSet.ext_mem
  intro t
  rw [Rulebook.mem_step, SortedSet.mem_image]
  constructor
  · rintro ⟨s', hs', hr⟩
    rcases SortedSet.mem_image.1 hs' with ⟨s, hs, rfl⟩
    rcases List.mem_map.1 ((h.mem_rules _).1 hr) with ⟨⟨source, symbol, target⟩, hr', heq⟩
    rcases Finite.Rule.mk.inj heq with ⟨hsource, rfl, rfl⟩
    -- The rule leaves a state with the same name, which is the state itself.
    have hstate : source ∈ a.states := Finite.source_mem_states hr'
    obtain rfl : source = s := h.apart source s hstate (hX s hs) hsource
    exact ⟨target, Rulebook.mem_step.2 ⟨source, hs, hr'⟩, rfl⟩
  · rintro ⟨t', ht', rfl⟩
    rcases Rulebook.mem_step.1 ht' with ⟨s, hs, hr⟩
    refine ⟨f s, SortedSet.mem_image.2 ⟨s, hs, rfl⟩, (h.mem_rules _).2 ?_⟩
    exact List.mem_map.2 ⟨_, hr, rfl⟩

theorem move_image (hX : ∀ s ∈ X, s ∈ a.states) (c : Char) :
    b.move (X.image f) c = (a.move X c).image f := by
  have hclosed : ∀ s ∈ a.rulebook.closure X, s ∈ a.states := fun s hs =>
    mem_states_of_mem_closure hX hs
  have hstep : ∀ t ∈ a.rulebook.step (a.rulebook.closure X) (.character c), t ∈ a.states := by
    intro t ht
    rcases Rulebook.mem_step.1 ht with ⟨s, _, hr⟩
    exact Finite.target_mem_states hr
  unfold move Rulebook.next
  rw [h.closure_image hX, h.step_image hclosed, h.closure_image hstep]

theorem startSet_image : b.startSet = a.startSet.image f := by
  have hstart : ∀ s ∈ SortedSet.singleton a.start, s ∈ a.states := fun _ =>
    mem_states_of_mem_singleton
  unfold startSet
  rw [h.start_eq, ← SortedSet.image_singleton, h.closure_image hstart]

/-- The rules read the same letters. -/
theorem alphabet_eq : b.rulebook.alphabet = a.rulebook.alphabet := by
  apply SortedSet.ext_mem
  intro c
  unfold Rulebook.alphabet
  rw [Finite.mem_alphabet, Finite.mem_alphabet]
  constructor
  · rintro ⟨r, hr, hc⟩
    rcases List.mem_map.1 ((h.mem_rules r).1 hr) with ⟨r', hr', rfl⟩
    exact ⟨r', hr', hc⟩
  · rintro ⟨r, hr, hc⟩
    exact ⟨r.map f, (h.mem_rules _).2 (List.mem_map_of_mem hr), hc⟩

/-- The graph of the sets is the same, with renamed sets. -/
theorem setGraph (letters : List Char) : (a.setGraph letters).Renaming
    (fun X => ∀ s ∈ X, s ∈ a.states) (SortedSet.image f) (Finite.Rule.map (SortedSet.image f))
    (b.setGraph letters) where
  apart X Y hX hY hXY := SortedSet.eq_of_image_eq h.apart hX hY hXY
  closed X _ Y hY s hs := by
    rcases leads_setGraph.1 hY with ⟨c, _, rfl⟩
    exact mem_states_of_mem_move hs
  edges_eq X hX := by
    unfold Nfa.setGraph setRules
    rw [List.map_map]
    apply List.map_congr_left
    intro c _
    rw [h.move_image hX]
    rfl
  target?_eq _ := rfl

/-- The walk finds the renamed sets in the order in which it finds the sets, and sees
    the renamed rules in the order in which it sees the rules. -/
theorem discover {seeds : List (SortedSet S)} (hseeds : ∀ X ∈ seeds, ∀ s ∈ X, s ∈ a.states) :
    (b.discover (seeds.map (SortedSet.image f))).discovered.toList =
        (a.discover seeds).discovered.toList.map (SortedSet.image f) ∧
      (b.discover (seeds.map (SortedSet.image f))).edges =
        (a.discover seeds).edges.map (Finite.Rule.map (SortedSet.image f)) := by
  have hgraph := h.setGraph b.rulebook.alphabet.toList
  unfold Nfa.discover
  rw [← h.alphabet_eq]
  exact hgraph.explore hseeds rfl

/-- What the walk does from the start sets. -/
theorem discover_startSet :
    (b.discover [b.startSet]).discovered.toList =
        (a.discover [a.startSet]).discovered.toList.map (SortedSet.image f) ∧
      (b.discover [b.startSet]).edges =
        (a.discover [a.startSet]).edges.map (Finite.Rule.map (SortedSet.image f)) := by
  have hseeds : ∀ X ∈ [a.startSet], ∀ s ∈ X, s ∈ a.states := by
    intro X hX s hs
    rw [List.mem_singleton.1 hX] at hs
    exact mem_states_of_mem_startSet hs
  have hwalk := h.discover hseeds
  rw [List.map_singleton, ← h.startSet_image] at hwalk
  exact hwalk

/-- A renamed set accepts exactly if the set does. -/
theorem exists_accepting_iff (hX : ∀ s ∈ X, s ∈ a.states) :
    (∃ t ∈ X.image f, t ∈ b.accepting) ↔ ∃ s ∈ X, s ∈ a.accepting := by
  have hmem : ∀ s ∈ X, f s ∈ b.accepting ↔ s ∈ a.accepting := by
    intro s hs
    rw [h.accepting_eq]
    exact SortedSet.apply_mem_image_iff h.apart
      (fun _ => Finite.mem_states_of_mem_accepting) (hX s hs)
  constructor
  · rintro ⟨t, ht, hacc⟩
    rcases SortedSet.mem_image.1 ht with ⟨s, hs, rfl⟩
    exact ⟨s, hs, (hmem s hs).1 hacc⟩
  · rintro ⟨s, hs, hacc⟩
    exact ⟨f s, SortedSet.mem_image.2 ⟨s, hs, rfl⟩, (hmem s hs).2 hacc⟩

/-- Determinized, a renamed automaton is the determinized automaton with its states
    renamed. -/
theorem determinize : a.determinize.Renaming (SortedSet.image f) b.determinize where
  apart X Y hX hY hXY := by
    rw [mem_states_determinize] at hX hY
    exact SortedSet.eq_of_image_eq h.apart (fun s hs => hX.mem_states hs)
      (fun s hs => hY.mem_states hs) hXY
  start_eq := h.startSet_image
  rules_eq := by
    rw [rules_determinize, rules_determinize, h.discover_startSet.2]
  accepting_eq := by
    apply SortedSet.ext_mem
    intro Y
    rw [mem_accepting_determinize, SortedSet.mem_image, Found, h.discover_startSet.1, List.mem_map]
    constructor
    · rintro ⟨⟨X, hX, rfl⟩, hacc⟩
      refine ⟨X, mem_accepting_determinize.2 ⟨hX, ?_⟩, rfl⟩
      exact (h.exists_accepting_iff fun s hs => Found.mem_states hX hs).1 hacc
    · rintro ⟨X, hX, rfl⟩
      rcases mem_accepting_determinize.1 hX with ⟨hfound, hacc⟩
      exact ⟨⟨X, hfound, rfl⟩, (h.exists_accepting_iff fun s hs => hfound.mem_states hs).2 hacc⟩

/-- With numbers for the states the two determinized automata are the same. -/
theorem renumber_determinize : b.determinize.renumber = a.determinize.renumber :=
  h.determinize.renumber_eq

end Renaming

end Nfa

end WordAutomata
