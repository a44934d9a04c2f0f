import WordAutomata.Proofs.DiscoveredSets

/-!
# Paths of a Determinized Automaton

The rules of a determinized automaton lead from set to set as a run over sets goes,
and renumbering gives the sets names without a gap. So a path of the numbered automaton
is a run over sets, and where there is no path there was a letter that is on no rule.

An answer of the numbered automaton is told by its paths, since it has no epsilon
rules. It says yes to the words that the automaton accepts, which was determinized,
and has no answer for those with a letter that is on no rule.

## Theorems

* `Nfa.path_determinize_iff`: The paths of a determinized automaton.
* `Nfa.accepts_iff_path_determinize`: Acceptance, told by these paths.
* `Dfa.exists_path_renumber_iff`: Renumbering keeps them.
* `Dfa.size_numbering`: Each state has a number of its own.
* `Nfa.reads_of_mem_rules_renumber`, `exists_rule_renumber_determinize`: The rules of
  the numbered automaton.
* `Nfa.judge_renumber_determinize_iff`, `accepts_renumber_determinize_eq_error_iff`:
  What the numbered automaton answers.
-/

universe u

namespace WordAutomata

namespace Nfa

variable {S : Type u} [Ordered S] {a : Nfa S} {X Y : SortedSet S}

/-- A closed set is moved as a run moves it. -/
theorem move_of_closed {c : Char} (hclosed : a.rulebook.closure X = X) :
    a.move X c = a.rulebook.next X c := by
  rw [move, hclosed]

/-- The only path from a closed set is the run over sets. -/
theorem path_determinize_iff {w : List Char} (hX : a.Found X) (hclosed : a.rulebook.closure X = X) :
    Finite.Path a.determinize.rulebook.rules X w Y ↔
      (∀ c ∈ w, a.Reads c) ∧ Y = w.foldl a.rulebook.next X := by
  constructor
  · intro h
    induction h with
    | refl X => exact ⟨fun c hc => absurd hc List.not_mem_nil, rfl⟩
    | free hr _ _ =>
        -- There are no epsilon rules.
        rcases (mem_rules_determinize.1 hr).2 with ⟨c, _, hsymbol, _⟩
        cases hsymbol
    | @read X Y Z c w hr _ ih =>
        rcases (mem_rules_determinize.1 hr).2 with ⟨d, hd, hsymbol, rfl⟩
        cases hsymbol
        rcases ih (found_move hX hd) (closure_move X c) with ⟨hw, hZ⟩
        refine ⟨List.forall_mem_cons.2 ⟨hd, hw⟩, ?_⟩
        rw [hZ, move_of_closed hclosed, List.foldl_cons]
  · rintro ⟨hw, rfl⟩
    induction w generalizing X with
    | nil => exact .refl X
    | cons c w ih =>
        rw [List.forall_mem_cons] at hw
        rw [List.foldl_cons, ← move_of_closed hclosed]
        refine .read ?_ (ih (found_move hX hw.1) (closure_move X c) hw.2)
        exact mem_rules_determinize.2 ⟨hX, c, hw.1, rfl, rfl⟩

variable [Describe S]

/-- A word is accepted exactly if a path of the determinized automaton leads from
    its start state to an accept state. -/
theorem accepts_iff_path_determinize {w : List Char} :
    a.accepts w = true ↔ ∃ Y ∈ a.determinize.accepting,
      Finite.Path a.determinize.rulebook.rules a.determinize.start w Y := by
  constructor
  · intro h
    -- What is accepted is read by rules, so it is a word over the alphabet.
    rcases accepts_iff.1 h with ⟨_, _, hpath⟩
    have hw : ∀ c ∈ w, a.Reads c := hpath.exists_rule
    have hrun := (readWord_determinize hw .silent).2.2.2
    refine ⟨_, ?_, (path_determinize_iff found_startSet Rulebook.closure_closure).2 ⟨hw, rfl⟩⟩
    rw [← SortedSet.contains_iff, contains_accepting_determinize hrun.1 hrun.2, ← accepts_eq]
    exact h
  · rintro ⟨Y, hY, hpath⟩
    rcases (path_determinize_iff found_startSet Rulebook.closure_closure).1 hpath with ⟨hw, rfl⟩
    have hrun := (readWord_determinize hw .silent).2.2.2
    rw [← SortedSet.contains_iff, contains_accepting_determinize hrun.1 hrun.2, ← accepts_eq] at hY
    exact hY

end Nfa

namespace Dfa

variable {S : Type u} [Ordered S] {a : Dfa S}

/-- The states of a renumbered automaton are the numbers below their count. -/
theorem mem_states_renumber_iff_lt_size {i : StateIndex} :
    i ∈ a.renumber.states ↔ i.value < a.renumber.states.size := by
  rw [size_states_renumber]
  exact mem_states_renumber

/-- A path from zero to an accept state is a path of the automaton that was
    renumbered. -/
theorem exists_path_renumber_iff {w : List Char} :
    (∃ i ∈ a.renumber.accepting, Finite.Path a.renumber.rulebook.rules ⟨0⟩ w i) ↔
      ∃ s ∈ a.accepting, Finite.Path a.rulebook.rules a.start w s := by
  have hzero : (⟨0⟩ : StateIndex) = numberOf a.numbering a.start := by
    rw [← start_renumber a]
    rfl
  rw [hzero]
  simp only [path_renumber_iff (a := a) Finite.start_mem_states, mem_accepting_renumber]
  constructor
  · rintro ⟨_, ⟨s, hs, rfl⟩, t, heq, ht, hpath⟩
    cases numberOf_injective (mem_numbering.2 (Finite.mem_states_of_mem_accepting hs))
      (mem_numbering.2 ht) heq
    exact ⟨s, hs, hpath⟩
  · rintro ⟨s, hs, hpath⟩
    exact ⟨_, ⟨s, hs, rfl⟩, s, rfl, Finite.mem_states_of_mem_accepting hs, hpath⟩

theorem length_rules_renumber (a : Dfa S) :
    a.renumber.rulebook.rules.length = a.rulebook.rules.length := by
  rw [rules_renumber, List.length_map]

/-- There are as many numbers as states. -/
theorem size_numbering (a : Dfa S) : a.numbering.size = a.states.size :=
  (SortedSet.size_eq_size fun _ => mem_numbering.symm).symm

end Dfa

namespace Nfa

variable {S : Type u} [Ordered S] {a : Nfa S} {w : List Char}

/-- The rules of the deterministic automaton with numbers for states carry the letters. -/
theorem reads_of_mem_rules_renumber {r : Finite.Rule StateIndex}
    (hr : r ∈ a.determinize.renumber.rulebook.rules) :
    ∃ c, a.Reads c ∧ r.symbol = .character c := by
  rw [Dfa.rules_renumber] at hr
  rcases List.mem_map.1 hr with ⟨r', hr', rfl⟩
  rcases (mem_rules_determinize.1 hr').2 with ⟨c, hc, hsymbol, _⟩
  exact ⟨c, hc, hsymbol⟩

/-- So none of them is an epsilon rule. -/
theorem free_renumber_determinize (a : Nfa S) :
    ∀ r ∈ a.determinize.renumber.rulebook.rules, r.symbol ≠ .epsilon := by
  intro r hr
  rcases reads_of_mem_rules_renumber hr with ⟨c, _, hsymbol⟩
  rw [hsymbol]
  exact Symbol.noConfusion

/-- Each number has a rule for each letter. -/
theorem exists_rule_renumber_determinize {i : StateIndex} {c : Char}
    (hi : i ∈ a.determinize.renumber.states) (hc : a.Reads c) :
    ∃ j, ⟨i, .character c, j⟩ ∈ a.determinize.renumber.rulebook.rules := by
  rcases Dfa.mem_states_renumber_iff.1 hi with ⟨X, hX, rfl⟩
  have hrule : ⟨X, .character c, a.move X c⟩ ∈ a.determinize.rulebook.rules :=
    mem_rules_determinize.2 ⟨mem_states_determinize.1 hX, c, hc, rfl, rfl⟩
  rw [Dfa.rules_renumber]
  exact ⟨_, List.mem_map.2 ⟨_, hrule, rfl⟩⟩

/-- Renumbering keeps the count of the states. -/
theorem size_states_renumber_determinize (a : Nfa S) :
    a.determinize.renumber.states.size = a.determinize.states.size := by
  rw [Dfa.size_states_renumber, Dfa.size_numbering]

/-- There is one rule for each state and each letter. -/
theorem length_rules_renumber_determinize (a : Nfa S) :
    a.determinize.renumber.rulebook.rules.length =
      a.determinize.states.size * a.rulebook.alphabet.size := by
  rw [Dfa.length_rules_renumber, length_rules_determinize]

variable [Describe S]

/-- The deterministic automaton says yes to the words that are accepted. -/
theorem judge_renumber_determinize_iff (log : Log) :
    (a.determinize.renumber.judge w log).1 = .ok true ↔ a.accepts w = true := by
  rw [Dfa.judge_eq_ok_true_iff a.free_renumber_determinize, Dfa.start_renumber,
    Dfa.exists_path_renumber_iff, accepts_iff_path_determinize]

/-- It has no answer for the words with a letter that is on no rule. -/
theorem accepts_renumber_determinize_eq_error_iff :
    (∃ e, a.determinize.renumber.accepts w = .error e) ↔ ∃ c ∈ w, ¬ a.Reads c := by
  have hpath : (∃ i, Finite.Path a.determinize.renumber.rulebook.rules
      a.determinize.renumber.start w i) ↔ ∀ c ∈ w, a.Reads c := by
    have hstart : a.determinize.renumber.start =
        Dfa.numberOf a.determinize.numbering a.determinize.start := rfl
    rw [hstart]
    simp only [Dfa.path_renumber_iff Finite.start_mem_states]
    constructor
    · rintro ⟨_, X, _, _, hpath⟩
      exact ((path_determinize_iff found_startSet Rulebook.closure_closure).1 hpath).1
    · intro hw
      -- The run over sets is the path, and it ends in a set that was found.
      have hfound := (readWord_determinize hw .silent).2.2.2.1
      have hpath := (path_determinize_iff found_startSet Rulebook.closure_closure).2 ⟨hw, rfl⟩
      exact ⟨_, _, rfl, mem_states_determinize.2 hfound, hpath⟩
  rw [Dfa.accepts_eq_error_iff a.free_renumber_determinize, hpath]
  simp only [not_forall, exists_prop]

end Nfa

end WordAutomata
