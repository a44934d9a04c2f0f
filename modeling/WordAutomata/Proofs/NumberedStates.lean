import WordAutomata.Proofs.DeterminizedPaths
import WordAutomata.Proofs.RenamedStates
import Mathlib.Data.Set.Function

/-!
# Numbered States

Renumbering takes nothing from an automaton but the names of its states. Each state has
one number, each number below their count is the number of one state, and the rules and
accept states are the same but for that. So a word gets the same answer, and where a
rule is missing it is missing for the same letter in the state with that number.

The numbers are asked for one after the other on a single walk, over the start state,
the rules and the accept states. What is answered early on remains right, because a
number is never changed. So each time that a state is met, the answer is the number that
the state has in the end.

The numbers do not depend on the names, and so the numbered automaton can stand for all
automata that are the same up to names. Numbering it once more changes nothing.

## Main definitions

* `MissingRule.map`: The same lookup fails in a place with another name.
* `Dfa.answers`: What a walk is told when it asks for one state after the other.

## Theorems

* `Dfa.answers_eq`: A walk is told the numbers that the states have in the end.
* `Dfa.renaming_renumber`: Numbers are new names.
* `Dfa.Renaming.readWord_eq`, `accepts_eq`: Runs of a renamed automaton.
* `Dfa.renumber_isomorphic`: Renumbering is an isomorphism.
* `Dfa.renumber_canonical`: It leaves nothing of the names.
-/

universe u v

namespace WordAutomata

/-- The same lookup fails in a place with another name. -/
def MissingRule.map {P : Type u} {Q : Type v} (f : P → Q) (e : MissingRule P) : MissingRule Q :=
  ⟨f e.place, e.symbol⟩

namespace Dfa

variable {S : Type u} {T : Type v} [Ordered S] [Ordered T]

/-! ## Numbers on a walk -/

/-- What a walk is told when it asks for the numbers of some states one after the
    other, each time with the numbering that it has by then. -/
def answers (n : Numbering S) : List S → List StateIndex
  | [] => []
  | s :: l => ⟨(n.insert s).1.value⟩ :: answers (n.grow s) l

theorem numberOf_grow (n : Numbering S) (s : S) :
    numberOf (n.grow s) s = ⟨(n.insert s).1.value⟩ := by
  rw [numberOf, Numbering.index?_grow]

/-- A number that was told does not change while the walk goes on. -/
theorem answers_eq_map (l : List S) (n : Numbering S) :
    answers n l = l.map (numberOf (l.foldl Numbering.grow n)) := by
  induction l generalizing n with
  | nil => rfl
  | cons s l ih =>
      have hs : s ∈ n.grow s := Numbering.mem_insert.2 (.inl rfl)
      rw [answers, List.map_cons, List.foldl_cons, ih,
        numberOf_of_prefix (Numbering.toList_prefix_grow l) hs, numberOf_grow]

/-- On a walk over all of an automaton each state is told the number that it has in
    the end. -/
theorem answers_eq (a : Dfa S) :
    answers .empty (a.start :: (Finite.ends a.rulebook.rules ++ a.accepting.toList)) =
      (a.start :: (Finite.ends a.rulebook.rules ++ a.accepting.toList)).map
        (numberOf a.numbering) := by
  rw [answers_eq_map, ← Numbering.fst_insertAll]
  rfl

/-! ## Renamed rules -/

variable {a : Dfa S} {b : Dfa T} {f : S → T}

/-- Numbers are new names. -/
theorem renaming_renumber (a : Dfa S) : a.Renaming (numberOf a.numbering) a.renumber where
  apart _ _ hs ht h := numberOf_injective (mem_numbering.2 hs) (mem_numbering.2 ht) h
  start_eq := rfl
  rules_eq := rules_renumber a
  accepting_eq := rfl

namespace Renaming

variable (h : a.Renaming f b)
include h

/-- The renamed rules can be put together to a rulebook. -/
theorem ofRules_eq :
    Rulebook.ofRules (a.rulebook.rules.map (Finite.Rule.map f)) = .ok b.rulebook := by
  rw [← h.rules_eq]
  exact b.rulebook.ofRules_rules

theorem next_of_ok {s t : S} {x : Symbol} (hnext : a.rulebook.next s x = .ok t) :
    b.rulebook.next (f s) x = .ok (f t) := by
  rw [Rulebook.next_eq_ok_iff] at hnext ⊢
  rw [h.rules_eq]
  exact List.mem_map_of_mem hnext

theorem next_of_error {s : S} {x : Symbol} {e : MissingRule S} (hs : s ∈ a.states)
    (hnext : a.rulebook.next s x = .error e) : b.rulebook.next (f s) x = .error (e.map f) := by
  cases hb : b.rulebook.next (f s) x with
  | error e' =>
      rw [Rulebook.eq_of_next_eq_error hb, Rulebook.eq_of_next_eq_error hnext]
      rfl
  | ok t =>
      rw [Rulebook.next_eq_ok_iff, h.rules_eq, List.mem_map] at hb
      rcases hb with ⟨⟨source, symbol, target⟩, hr, heq⟩
      rcases Finite.Rule.mk.inj heq with ⟨hsource, rfl, _⟩
      -- The rule leaves a state with the same name, so it leaves the state itself.
      obtain rfl : source = s := h.apart source s (Finite.source_mem_states hr) hs hsource
      rw [Rulebook.next_of_mem hr] at hnext
      cases hnext

variable [Describe S] [Describe T]

/-- A renamed automaton runs through the renamed states, and stops for the same letter. -/
theorem readWord_eq {run : Run S} {run' : Run T} (ha : run.automaton = a)
    (hb : run'.automaton = b) (hs : run.state ∈ a.states) (hstate : run'.state = f run.state)
    (w : List Char) : (run.readWord w).1.state ∈ a.states ∧
      (run'.readWord w).1.state = f (run.readWord w).1.state ∧
      (run'.readWord w).2 = (run.readWord w).2.map (MissingRule.map f) := by
  induction w generalizing run run' with
  | nil => exact ⟨hs, hstate, rfl⟩
  | cons c w ih =>
      cases hnext : run.automaton.rulebook.next run.state (.character c) with
      | error e =>
          have hnext' : run'.automaton.rulebook.next run'.state (.character c) =
              .error (e.map f) := by
            rw [ha] at hnext
            rw [hb, hstate]
            exact h.next_of_error hs hnext
          rw [Run.readWord_cons_of_error hnext, Run.readWord_cons_of_error hnext']
          exact ⟨hs, hstate, rfl⟩
      | ok t =>
          have hnext' : run'.automaton.rulebook.next run'.state (.character c) = .ok (f t) := by
            rw [ha] at hnext
            rw [hb, hstate]
            exact h.next_of_ok hnext
          have ht : t ∈ a.states := by
            rw [Rulebook.next_eq_ok_iff, ha] at hnext
            exact Finite.target_mem_states hnext
          rcases Run.read_of_next hnext with ⟨log, hread⟩
          rcases Run.read_of_next hnext' with ⟨log', hread'⟩
          rw [Run.readWord_cons_of_ok hread, Run.readWord_cons_of_ok hread']
          exact ih ha hb ht rfl

/-- A renamed automaton gives the same answers. -/
theorem accepts_eq (w : List Char) :
    b.accepts w = (a.accepts w).mapError (MissingRule.map f) := by
  have hstart : (a.run .silent).automaton = a ∧ (b.run .silent).automaton = b := ⟨rfl, rfl⟩
  rcases h.readWord_eq hstart.1 hstart.2 Finite.start_mem_states h.start_eq w with
    ⟨hs, hstate, hfault⟩
  cases ha : ((a.run .silent).readWord w).2 with
  | some e =>
      rw [ha] at hfault
      rw [accepts_of_some ha, accepts_of_some hfault]
      rfl
  | none =>
      rw [ha] at hfault
      rw [accepts_of_none ha, accepts_of_none hfault, Run.isAccepting, Run.isAccepting,
        Run.automaton_readWord, Run.automaton_readWord, hstate]
      have hmem : f ((a.run .silent).readWord w).1.state ∈ b.accepting ↔
          ((a.run .silent).readWord w).1.state ∈ a.accepting := by
        rw [h.accepting_eq]
        exact SortedSet.apply_mem_image_iff h.apart
          (fun _ => Finite.mem_states_of_mem_accepting) hs
      have hsame : b.accepting.contains (f ((a.run .silent).readWord w).1.state) =
          a.accepting.contains ((a.run .silent).readWord w).1.state := by
        rw [Bool.eq_iff_iff, SortedSet.contains_iff, SortedSet.contains_iff]
        exact hmem
      exact congrArg Except.ok hsame

end Renaming

/-! ## Numbering as an isomorphism -/

/-- What is missing is a rule for a letter in one of the states. -/
theorem exists_of_accepts_eq_error [Describe S] {w : List Char} {e : MissingRule S}
    (h : a.accepts w = .error e) : ∃ s ∈ a.states, ∃ c, e = ⟨s, .character c⟩ := by
  cases hrun : ((a.run .silent).readWord w).2 with
  | none =>
      rw [accepts_of_none hrun] at h
      cases h
  | some e' =>
      rw [accepts_of_some hrun] at h
      cases h
      rcases Run.exists_next_eq_error hrun with ⟨u, c, _, _, _, hnext⟩
      have hstart : (a.run .silent).automaton = a ∧
          (a.renumber.run .silent).automaton = a.renumber := ⟨rfl, rfl⟩
      have hstate := a.renaming_renumber.readWord_eq hstart.1 hstart.2 Finite.start_mem_states rfl u
      exact ⟨_, hstate.1, c, Rulebook.eq_of_next_eq_error hnext⟩

/-- The states of a numbered automaton are listed as the numbers up to their count. -/
theorem toList_states_renumber (a : Dfa S) :
    a.renumber.states.toList = (List.range a.states.size).map Index.mk := by
  apply SortedSet.eq_of_ascending a.renumber.states.ascending
  · rw [List.pairwise_map]
    refine List.pairwise_lt_range.imp fun {i j} hij => ?_
    show compare i j = .lt
    exact Nat.compare_eq_lt.2 hij
  · intro i
    rw [← SortedSet.mem_def, mem_states_renumber, size_numbering, List.mem_map]
    constructor
    · intro hlt
      exact ⟨i.value, List.mem_range.2 hlt, rfl⟩
    · rintro ⟨k, hk, rfl⟩
      exact List.mem_range.1 hk

theorem bijOn_numberOf (a : Dfa S) : Set.BijOn (numberOf a.numbering) {s | s ∈ a.states}
    {i | i.value < a.states.size} := by
  rw [← size_numbering]
  refine ⟨fun s hs => numberOf_lt (mem_numbering.2 hs), fun s hs t ht => ?_, fun i hi => ?_⟩
  · exact numberOf_injective (mem_numbering.2 hs) (mem_numbering.2 ht)
  · exact mem_states_renumber_iff.1 (mem_states_renumber.2 hi)

/-- Renumbering gives the states the numbers below their count, each number to one
    state, in the order in which a walk asks for them. The rules remain a rulebook, and
    they and the accept states are the same under the numbers. So each word has the
    answer that it had, and a missing rule is missing for the same letter, in the state
    with the number. -/
theorem renumber_isomorphic [Describe S] (a : Dfa S) :
    ∃ number : S → StateIndex,
      Set.BijOn number {s | s ∈ a.states} {i | i.value < a.states.size} ∧
      number a.start = ⟨0⟩ ∧
      answers .empty (a.start :: (Finite.ends a.rulebook.rules ++ a.accepting.toList)) =
        (a.start :: (Finite.ends a.rulebook.rules ++ a.accepting.toList)).map number ∧
      Rulebook.ofRules (a.rulebook.rules.map (Finite.Rule.map number)) =
        .ok a.renumber.rulebook ∧
      a.renumber.rulebook.rules = a.rulebook.rules.map (Finite.Rule.map number) ∧
      a.renumber.start = ⟨0⟩ ∧
      (∀ i, i ∈ a.renumber.accepting ↔ ∃ s ∈ a.accepting, number s = i) ∧
      (∀ w answer, a.renumber.accepts w = .ok answer ↔ a.accepts w = .ok answer) ∧
      (∀ w e, a.renumber.accepts w = .error e ↔ ∃ s ∈ a.states, ∃ c,
        a.accepts w = .error ⟨s, .character c⟩ ∧ e = ⟨number s, .character c⟩) ∧
      a.renumber.states.toList = (List.range a.states.size).map Index.mk := by
  have hanswers := a.renaming_renumber.accepts_eq
  refine ⟨numberOf a.numbering, a.bijOn_numberOf, a.start_renumber, a.answers_eq,
    a.renaming_renumber.ofRules_eq, a.rules_renumber, a.start_renumber,
    fun i => mem_accepting_renumber, fun w answer => ?_, fun w e => ?_, a.toList_states_renumber⟩
  · rw [hanswers]
    cases a.accepts w with
    | error e => simp only [Except.mapError, reduceCtorEq]
    | ok answer' => simp only [Except.mapError, Except.ok.injEq]
  · rw [hanswers]
    constructor
    · intro he
      cases ha : a.accepts w with
      | ok answer =>
          rw [ha] at he
          cases he
      | error e' =>
          rw [ha] at he
          cases he
          rcases exists_of_accepts_eq_error ha with ⟨s, hs, c, rfl⟩
          exact ⟨s, hs, c, rfl, rfl⟩
    · rintro ⟨s, _, c, ha, rfl⟩
      rw [ha]
      rfl

/-! ## Numbering as a canonical form -/

/-- Whatever names the states of an automaton are given, as long as they stay apart, they
    make an automaton, and its states get the same numbers as before. In particular an
    automaton whose states have their numbers already is not changed. -/
theorem renumber_canonical (a : Dfa S) (f : S → T) (hf : Set.InjOn f {s | s ∈ a.states}) :
    (∃ book, Rulebook.ofRules (a.rulebook.rules.map (Finite.Rule.map f)) = .ok book ∧
      (⟨f a.start, a.accepting.image f, book⟩ : Dfa T).renumber = a.renumber) ∧
    a.renumber.renumber = a.renumber := by
  have hdistinct : ((a.rulebook.rules.map (Finite.Rule.map f)).map Rulebook.place).Nodup := by
    refine nodup_place_map a.rulebook.distinct fun r hr s hs h => ?_
    exact hf (Finite.source_mem_states hr) (Finite.source_mem_states hs) h
  have hrename : a.Renaming f ⟨f a.start, a.accepting.image f, .ofDistinct _ hdistinct⟩ := {
    apart := fun s t hs ht h => hf hs ht h
    start_eq := rfl
    rules_eq := by simp only [Rulebook.rules_ofDistinct]
    accepting_eq := rfl
  }
  exact ⟨⟨_, hrename.ofRules_eq, hrename.renumber_eq⟩, a.renaming_renumber.renumber_eq⟩

/-- An automaton with accept states that no rule meets. In order they stand on both sides
    of those that are met. -/
def scattered : Dfa StateIndex :=
  ⟨⟨4⟩, .ofList [⟨1⟩, ⟨6⟩, ⟨2⟩, ⟨9⟩, ⟨8⟩],
    .ofDistinct [⟨⟨4⟩, .character 'a', ⟨6⟩⟩, ⟨⟨6⟩, .epsilon, ⟨4⟩⟩] (by decide)⟩

/-- The names in reverse order. -/
def mirrored (i : StateIndex) : Int := -(i.value : Int)

/-- In reverse order the accept states that no rule meets get their numbers from the
    other end. -/
theorem renumber_canonical_scattered :
    Set.InjOn mirrored {s | s ∈ scattered.states} ∧
    (∃ book, Rulebook.ofRules (scattered.rulebook.rules.map (Finite.Rule.map mirrored)) = .ok book ∧
      (⟨mirrored scattered.start, scattered.accepting.image mirrored, book⟩ : Dfa Int).renumber =
        scattered.renumber) ∧
    scattered.renumber.renumber = scattered.renumber := by
  have hinj : Set.InjOn mirrored {s | s ∈ scattered.states} := by
    rintro ⟨i⟩ _ ⟨j⟩ _ h
    simp only [mirrored] at h
    congr 1
    omega
  exact ⟨hinj, renumber_canonical scattered mirrored hinj⟩

end Dfa

end WordAutomata
