import WordAutomata.Proofs.DeterminizedPaths
import WordAutomata.Proofs.WrittenFiles
import Mathlib

/-!
# Determinized Automata in Files

An automaton that was read from a file, determinized, renumbered and written can
be read again, and still accepts the same words. Nothing is asked of the file but
that it can be read.

The links of the chain are elsewhere. Symbols that were read can be written, and
determinizing makes no new ones. Renumbering leaves no gaps, so that the states are
below their number. A file that was written gives back the rules. What remains is
that rules are all that matters: the paths of the determinized rules are the runs
over sets of states, and renumbering renames paths.

There are no more states than rules, but for a single state without any, since
each set has a rule for every letter. So if the rules can be counted in 64 bits,
then the states can.

## Theorems

* `Aldebaran.read_text_renumber`: A renumbered automaton comes back from a file.
* `Aldebaran.read_determinized`: So does a determinized one, with its language.
-/

universe u

namespace WordAutomata

namespace Aldebaran

variable {silent again : List (List Char)} {bytes : List UInt8} {a : Automaton}

/-- Symbols of a determinized automaton are symbols that were read. -/
theorem plain_of_determinize (hread : read silent bytes = .ok a) (hagain : again ⊆ silent)
    (accepting : List StateIndex) :
    ∀ r ∈ (a.toNfa accepting).determinize.renumber.rulebook.rules, Plain again r.symbol := by
  intro r hr c hc
  rw [Dfa.rules_renumber] at hr
  rcases List.mem_map.1 hr with ⟨r', hr', rfl⟩
  rcases (Nfa.mem_rules_determinize.1 hr').2 with ⟨d, ⟨r'', hr'', hd⟩, hsymbol, _⟩
  have hcd : d = c := by
    have heq : Symbol.character d = .character c := hsymbol.symm.trans hc
    cases heq
    rfl
  subst hcd
  have hplain := plain_of_read hread r'' hr'' d hd
  exact ⟨hplain.1, fun hmem => hplain.2 (hagain hmem)⟩

/-- A renumbered automaton comes back from a file: its states are below their
    number, since no number is left out. -/
theorem read_text_renumber {S : Type u} [Ordered S] {d : Dfa S}
    (hstates : d.renumber.states.size < UInt64.size)
    (hcount : d.renumber.rulebook.rules.length < UInt64.size)
    (hplain : ∀ r ∈ d.renumber.rulebook.rules, Plain silent r.symbol) :
    read silent (text d.renumber).toUTF8.toList =
      .ok ⟨d.renumber.start, d.renumber.states.size, .ofRules d.renumber.rulebook.rules⟩ := by
  have hstart : d.renumber.start.value < d.renumber.states.size :=
    Dfa.mem_states_renumber_iff_lt_size.1 Finite.start_mem_states
  have hends : ∀ r ∈ d.renumber.rulebook.rules,
      r.source.value < d.renumber.states.size ∧ r.target.value < d.renumber.states.size := by
    intro r hr
    exact ⟨Dfa.mem_states_renumber_iff_lt_size.1 (Finite.source_mem_states hr),
      Dfa.mem_states_renumber_iff_lt_size.1 (Finite.target_mem_states hr)⟩
  exact read_text hstart hends hstates hcount hplain

/-- A file that was read, determinized, renumbered and written can be read again,
    with the same silent labels or with fewer. What comes back has the start state
    zero, as many states as were written, and the rules that were written, and it
    accepts the words that the automaton in the first file accepts. The rules have
    to be countable in 64 bits, as they are where they fit into memory. -/
theorem read_determinized (silent again : List (List Char)) (hagain : again ⊆ silent)
    (bytes : List UInt8) (a : Automaton) (hread : read silent bytes = .ok a)
    (accepting : List StateIndex) (log : Log)
    (hcount : (a.toNfa accepting).determinize.renumber.rulebook.rules.length < UInt64.size) :
    ∃ text back, (write none (a.toNfa accepting).determinize.renumber log).1 = .ok text ∧
      read again text.toUTF8.toList = .ok back ∧
      back.initial = ⟨0⟩ ∧
      back.states = (a.toNfa accepting).determinize.renumber.states.size ∧
      back.rulebook.rules = (a.toNfa accepting).determinize.renumber.rulebook.rules ∧
      ∀ w, (back.toNfa (a.toNfa accepting).determinize.renumber.accepting.toList).accepts w =
        (a.toNfa accepting).accepts w := by
  have hplain := plain_of_determinize hread hagain accepting
  generalize hN : a.toNfa accepting = N at *
  -- The rules can be counted, so the states can.
  have hstates : N.determinize.renumber.states.size < UInt64.size := by
    have hle := N.size_numbering_determinize_le
    have hlength : N.determinize.renumber.rulebook.rules.length =
        N.determinize.rulebook.rules.length := by
      rw [Dfa.rules_renumber, List.length_map]
    rw [Dfa.size_states_renumber]
    have hone : 1 < UInt64.size := by decide
    omega
  refine ⟨text N.determinize.renumber, _, rfl, read_text_renumber hstates hcount hplain,
    N.determinize.start_renumber, rfl, rfl, fun w => ?_⟩
  -- Both sides come down to the paths of the determinized automaton.
  rw [Bool.eq_iff_iff, Nfa.accepts_iff, Nfa.accepts_iff_path_determinize,
    ← Dfa.exists_path_renumber_iff]
  simp only [Automaton.toNfa, SortedSet.mem_ofList, ← SortedSet.mem_def]
  rw [← N.determinize.start_renumber]
  rfl

/-- A file with a comma, a quote and a letter beyond ASCII for labels, and with a
    label that is silent besides the one that always is. -/
def delimiters : List UInt8 :=
  ("des (0, 5, 3)\r\n(0, \",\", 1)\n(1, tau, 2)\n (1,i, 0) \n\n" ++
    "(2, \"\"\", 0)\n(2, é, 1)").toUTF8.toList

/-- The automaton in this file. -/
def delimited : Automaton :=
  ⟨⟨0⟩, 3, .ofRules [⟨⟨0⟩, .character ',', ⟨1⟩⟩, ⟨⟨1⟩, .epsilon, ⟨2⟩⟩, ⟨⟨1⟩, .epsilon, ⟨0⟩⟩,
    ⟨⟨2⟩, .character '"', ⟨0⟩⟩, ⟨⟨2⟩, .character 'é', ⟨1⟩⟩]⟩

/-- Three sets are met in it, one of them empty, and each has a rule for each letter.
    They come back from a file, and so does a word that is accepted. -/
theorem read_determinized_delimiters :
    read [['i']] delimiters = .ok delimited ∧
    (delimited.toNfa [⟨2⟩]).determinize.renumber.rulebook.rules.length = 9 ∧
    ∃ text back, (write none (delimited.toNfa [⟨2⟩]).determinize.renumber .silent).1 = .ok text ∧
      read [] text.toUTF8.toList = .ok back ∧ back.initial = ⟨0⟩ ∧
      back.rulebook.rules = (delimited.toNfa [⟨2⟩]).determinize.renumber.rulebook.rules ∧
      (back.toNfa (delimited.toNfa [⟨2⟩]).determinize.renumber.accepting.toList).accepts
        [',', 'é', '"', ','] = true := by
  have hread : read [['i']] delimiters = .ok delimited := by cbv
  have hlength : (delimited.toNfa [⟨2⟩]).determinize.renumber.rulebook.rules.length = 9 := by
    rw [Dfa.rules_renumber, List.length_map, Nfa.rules_determinize]
    cbv
  have hcount : (delimited.toNfa [⟨2⟩]).determinize.renumber.rulebook.rules.length <
      UInt64.size := by
    rw [hlength]
    decide
  have haccepts : (delimited.toNfa [⟨2⟩]).accepts [',', 'é', '"', ','] = true := by cbv
  rcases read_determinized [['i']] [] (List.nil_subset _) delimiters delimited hread [⟨2⟩] .silent
    hcount with ⟨text, back, htext, hback, hinitial, _, hrules, haccept⟩
  refine ⟨hread, hlength, text, back, htext, hback, hinitial, hrules, ?_⟩
  rw [haccept, haccepts]

end Aldebaran

end WordAutomata
