import WordAutomata.Proofs.DeterminizedPaths
import WordAutomata.Proofs.PatternLanguage

/-!
# The Deterministic Automaton of a Pattern

A pattern is compiled, the automaton is determinized, and the sets of states get
numbers. What comes out of the three steps is told here by the pattern alone.

The letters on its rules are the characters in the pattern, since joining fragments
only adds epsilon rules. Each state has one rule for each of them, the dead state too.
So the automaton has an answer for every word over these characters, and that is
whether the pattern stands for the word. With any other character it stops, at the
first one, wherever it has come to by then.

## Theorems

* `Pattern.reads_compile_iff`: The characters on the rules of a fragment.
* `Dfa.Rulebook.countP_applies`: A place that has a rule has one.
* `Pattern.toDfa_decides`: What the deterministic automaton looks like and answers.
-/

universe u

namespace WordAutomata

namespace Fragment

/-- A rule of the fragment reads the character. -/
def Reads (f : Fragment) (c : Char) : Prop := ∃ r ∈ f.rules.toList, r.symbol = .character c

variable {a b : Fragment} {s t : StateIndex} {c d : Char}

theorem not_reads_point : ¬ (point s).Reads c := by
  rintro ⟨r, hr, _⟩
  exact absurd hr List.not_mem_nil

theorem reads_edge : (edge s d t).Reads c ↔ c = d := by
  constructor
  · rintro ⟨r, hr, hsymbol⟩
    rw [List.mem_singleton.1 hr] at hsymbol
    injection hsymbol with hdc
    exact hdc.symm
  · rintro rfl
    exact ⟨_, List.mem_singleton_self _, rfl⟩

/-- Rules that join fragments read nothing, so the characters are those of the parts. -/
theorem reads_followedBy : (a.followedBy b).Reads c ↔ a.Reads c ∨ b.Reads c := by
  constructor
  · rintro ⟨r, hr, hsymbol⟩
    rcases mem_rules_followedBy.1 hr with hr | hr | ⟨e, _, rfl⟩
    · exact .inl ⟨r, hr, hsymbol⟩
    · exact .inr ⟨r, hr, hsymbol⟩
    · cases hsymbol
  · rintro (⟨r, hr, hsymbol⟩ | ⟨r, hr, hsymbol⟩)
    · exact ⟨r, mem_rules_followedBy.2 (.inl hr), hsymbol⟩
    · exact ⟨r, mem_rules_followedBy.2 (.inr (.inl hr)), hsymbol⟩

theorem reads_either : (either s a b).Reads c ↔ a.Reads c ∨ b.Reads c := by
  constructor
  · rintro ⟨r, hr, hsymbol⟩
    rcases mem_rules_either.1 hr with hr | hr | rfl | rfl
    · exact .inl ⟨r, hr, hsymbol⟩
    · exact .inr ⟨r, hr, hsymbol⟩
    · cases hsymbol
    · cases hsymbol
  · rintro (⟨r, hr, hsymbol⟩ | ⟨r, hr, hsymbol⟩)
    · exact ⟨r, mem_rules_either.2 (.inl hr), hsymbol⟩
    · exact ⟨r, mem_rules_either.2 (.inr (.inl hr)), hsymbol⟩

theorem reads_looped : (looped s a).Reads c ↔ a.Reads c := by
  constructor
  · rintro ⟨r, hr, hsymbol⟩
    rcases mem_rules_looped.1 hr with hr | ⟨e, _, rfl⟩ | rfl
    · exact ⟨r, hr, hsymbol⟩
    · cases hsymbol
    · cases hsymbol
  · rintro ⟨r, hr, hsymbol⟩
    exact ⟨r, mem_rules_looped.2 (.inl hr), hsymbol⟩

end Fragment

namespace Dfa.Rulebook

variable {S : Type u} [Ordered S] {b : Rulebook S}

/-- In a place that has a rule no other one applies. -/
theorem countP_applies {s t : S} {x : Symbol} (h : ⟨s, x, t⟩ ∈ b.rules) :
    (b.rules.countP fun r => r.applies s x) = 1 := by
  have hplace : (s, x) ∈ b.rules.map place := List.mem_map.2 ⟨_, h, rfl⟩
  rw [← List.count_eq_one_of_mem b.distinct hplace, List.count, List.countP_map]
  rfl

end Dfa.Rulebook

namespace Pattern

/-- A compiled pattern reads the characters in the pattern. -/
theorem reads_compile_iff (p : Pattern) (supply : StateSupply) {c : Char} :
    (p.compile supply).1.Reads c ↔ c ∈ p.literals := by
  induction p generalizing supply with
  | empty => exact iff_of_false Fragment.not_reads_point List.not_mem_nil
  | literal d => exact Fragment.reads_edge.trans List.mem_singleton.symm
  | concatenate p q ihp ihq =>
      -- The second pattern takes its states from what the first one left.
      rw [literals, List.mem_append, ← ihp supply, ← ihq (p.compile supply).2]
      exact Fragment.reads_followedBy
  | choose p q ihp ihq =>
      rw [literals, List.mem_append, ← ihp supply, ← ihq (p.compile supply).2]
      exact Fragment.reads_either
  | repeated p ih =>
      rw [literals, ← ih supply]
      exact Fragment.reads_looped

theorem reads_toNfa_iff {p : Pattern} {c : Char} : p.toNfa.Reads c ↔ c ∈ p.literals :=
  reads_compile_iff p .fresh

theorem alphabet_toNfa (p : Pattern) : p.toNfa.rulebook.alphabet = .ofList p.literals := by
  apply SortedSet.ext_mem
  intro c
  rw [SortedSet.mem_ofList, ← reads_toNfa_iff]
  exact Finite.mem_alphabet

/-- The deterministic automaton says yes to the words of the pattern. -/
theorem accepts_toDfa_iff {p : Pattern} {w : List Char} :
    p.toDfa.accepts w = .ok true ↔ w ∈ p.language := by
  rw [mem_language_iff_path, ← Nfa.accepts_iff]
  exact Nfa.judge_renumber_determinize_iff .silent

/-- It has an answer for the words over the characters in the pattern. -/
theorem readWord_toDfa_iff {p : Pattern} {w : List Char} :
    ((p.toDfa.run .silent).readWord w).2 = none ↔ ∀ c ∈ w, c ∈ p.literals := by
  have hiff : (∃ e, p.toDfa.accepts w = .error e) ↔ ∃ c ∈ w, ¬ p.toNfa.Reads c :=
    Nfa.accepts_renumber_determinize_eq_error_iff
  simp only [reads_toNfa_iff] at hiff
  cases hrun : ((p.toDfa.run .silent).readWord w).2 with
  | none =>
      simp only [Dfa.accepts_of_none hrun, reduceCtorEq, exists_false, false_iff, not_exists,
        not_and, not_not] at hiff
      exact iff_of_true rfl hiff
  | some e =>
      simp only [Dfa.accepts_of_some hrun, Except.error.injEq, exists_eq', true_iff] at hiff
      rcases hiff with ⟨c, hc, hliteral⟩
      exact iff_of_false (Option.some_ne_none e) fun hw => hliteral (hw c hc)

/-- A character that is not in the pattern has no rule in any state. -/
theorem next_toDfa_of_not_mem {p : Pattern} {c : Char} (hc : c ∉ p.literals) (i : StateIndex) :
    p.toDfa.rulebook.next i (.character c) = .error ⟨i, .character c⟩ := by
  apply Dfa.Rulebook.next_of_forall_ne
  intro r hr hsymbol
  -- A rule with this character would carry a letter of the pattern.
  rcases Nfa.reads_of_mem_rules_renumber hr with ⟨d, hd, hr⟩
  injection hr.symm.trans hsymbol with hdc
  rw [hdc] at hd
  exact hc (reads_toNfa_iff.1 hd)

/-- The states of the deterministic automaton of a pattern are numbered from zero, which
    is where it starts. There is exactly one rule for each state and each character in
    the pattern. Words over these characters are accepted exactly if the pattern stands
    for them. For other words there is no answer: the run reports the first character
    that is not in the pattern, and the state in which it is at that character. -/
theorem toDfa_decides (p : Pattern) :
    p.toDfa.start = ⟨0⟩ ∧
    (∃ k, (∀ i, i ∈ p.toDfa.states ↔ i.value < k) ∧
      p.toDfa.rulebook.rules.length = k * (SortedSet.ofList p.literals).size ∧
      (∀ r ∈ p.toDfa.rulebook.rules, ∃ c ∈ p.literals, r.symbol = .character c) ∧
      ∀ i : StateIndex, i.value < k → ∀ c ∈ p.literals,
        (p.toDfa.rulebook.rules.countP fun r => r.applies i (.character c)) = 1) ∧
    ∀ w, ((∀ c ∈ w, c ∈ p.literals) →
        ∃ b, p.toDfa.accepts w = .ok b ∧ (b = true ↔ w ∈ p.language)) ∧
      ((¬ ∀ c ∈ w, c ∈ p.literals) → ∃ u c v, w = u ++ c :: v ∧ (∀ x ∈ u, x ∈ p.literals) ∧
        c ∉ p.literals ∧ p.toDfa.accepts w =
          .error ⟨((p.toDfa.run .silent).readWord u).1.state, .character c⟩) := by
  refine ⟨Dfa.start_renumber _, ⟨p.toDfa.states.size,
    fun i => Dfa.mem_states_renumber_iff_lt_size, ?_, fun r hr => ?_, fun i hi c hc => ?_⟩,
    fun w => ⟨fun hw => ?_, fun hw => ?_⟩⟩
  · rw [← alphabet_toNfa, toDfa, Nfa.length_rules_renumber_determinize,
      Nfa.size_states_renumber_determinize]
  · rcases Nfa.reads_of_mem_rules_renumber hr with ⟨c, hc, hsymbol⟩
    exact ⟨c, reads_toNfa_iff.1 hc, hsymbol⟩
  · have hstate : i ∈ p.toDfa.states := Dfa.mem_states_renumber_iff_lt_size.2 hi
    rcases Nfa.exists_rule_renumber_determinize hstate (reads_toNfa_iff.2 hc) with ⟨j, hj⟩
    exact Dfa.Rulebook.countP_applies hj
  · refine ⟨_, Dfa.accepts_of_none (readWord_toDfa_iff.2 hw), ?_⟩
    rw [← accepts_toDfa_iff, Dfa.accepts_of_none (readWord_toDfa_iff.2 hw), Except.ok.injEq]
  · -- The run goes well up to the first character that is not in the pattern.
    rcases exists_first_not hw with ⟨u, c, v, rfl, hu, hc⟩
    refine ⟨u, c, v, rfl, hu, hc, Dfa.accepts_of_some ?_⟩
    rw [Dfa.Run.readWord_append_cons_of_error (readWord_toDfa_iff.2 hu)
      (next_toDfa_of_not_mem hc _)]

end Pattern

end WordAutomata
