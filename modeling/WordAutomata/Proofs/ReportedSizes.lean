import WordAutomata.Proofs.CommandOutcomes
import WordAutomata.Proofs.DeterminizedPaths
import Mathlib

/-!
# Sizes That Are Reported

Two commands tell how large the deterministic automaton of a file is. One counts its
states and says so. The other writes the automaton, with the counts of its rules and
states in the header.

They do not count the same automaton. The first one is asked for no accept states and
leaves the sets of states as they are. The second one is given accept states, maybe
some that the file does not have, and counts numbers. That the counts agree comes from
three facts. Which sets are found does not depend on what is accepted, so that accept
states are sets that were found already. Different sets get different numbers. And
each set has a rule for each letter, so the rules are as many as the header says.

## Main definitions

* `Tool.Arguments.InfoOn`, `Tool.Arguments.DeterminizeOn`: Arguments that ask for one
  or the other.
* `Tool.headerLine`: The header of a file whose first state is zero.

## Theorems

* `Nfa.size_states_determinize_of_rulebook`: Accept states do not count.
* `Tool.determinizedText_eq_header`: The header of the text that is written.
* `Tool.reported_sizes_agree`: What both commands say.
-/

universe u

namespace WordAutomata

namespace Nfa

variable {S : Type u} [Ordered S] {a b : Nfa S}

/-- How many states a determinized automaton has depends on the rules and on where it
    starts, but not on what it accepts. -/
theorem size_states_determinize_of_rulebook (hstart : a.start = b.start)
    (hrules : a.rulebook = b.rulebook) :
    a.determinize.states.size = b.determinize.states.size := by
  rcases a with ⟨start, accepting, rulebook⟩
  rcases b with ⟨_, accepting', _⟩
  cases hstart
  cases hrules
  -- The walk looks at the rules only, so it is the same walk.
  rw [size_states_determinize, size_states_determinize]
  rfl

end Nfa

namespace Tool

open Activity

variable {path : String} {silent : List String} {accepting : List Nat} {output : Option String}
  {results : List String} {s : FileSystem} {a : Aldebaran.Automaton}

/-- How many states the deterministic automaton of a file has. -/
def determinizedSize (a : Aldebaran.Automaton) : Nat := (a.toNfa []).determinize.states.size

theorem size_states_determinize_toNfa (accepting : List StateIndex) :
    (a.toNfa accepting).determinize.states.size = determinizedSize a :=
  Nfa.size_states_determinize_of_rulebook rfl rfl

/-- The header of a file in which the automaton starts in its first state. -/
def headerLine (rules states : Nat) : String :=
  "des (0, " ++ describe rules ++ ", " ++ describe states ++ ")\n"

/-- The line that says which letters there are. -/
def alphabetLine (letters : List Char) : String :=
  "Alphabet: " ++ braced (letters.map Char.toString) ++ "\n"

/-- The line that says how many states the deterministic automaton has. -/
def sizeLine (states : Nat) : String :=
  "Number of determinized states: " ++ describe states ++ "\n"

/-- The header counts the states, and rules for each of them and each letter. -/
theorem determinizedText_eq_header (a : Aldebaran.Automaton) (accepting : List Nat) :
    ∃ lines, determinizedText a accepting =
      headerLine (determinizedSize a * a.rulebook.alphabet.toList.length) (determinizedSize a) ++
        lines := by
  have hzero : describe (⟨0⟩ : StateIndex) = "0" := by decide
  have hhead : "des (0, " = "des " ++ "(" ++ "0" ++ ", " := by decide
  have hsize : (a.toNfa (accepting.map Index.mk)).rulebook.alphabet.size =
      a.rulebook.alphabet.toList.length := rfl
  refine ⟨String.join ((a.toNfa (accepting.map
    Index.mk)).determinize.renumber.rulebook.rules.map Aldebaran.ruleLine), ?_⟩
  rw [determinizedText, Aldebaran.text, Aldebaran.tuple, Dfa.start_renumber, hzero,
    Nfa.length_rules_renumber_determinize, Nfa.size_states_renumber_determinize,
    size_states_determinize_toNfa, hsize, headerLine, hhead]
  simp only [String.append_assoc]

/-- Counting ends with a line on the letters and one on the deterministic automaton. -/
theorem ensures_info (h : s.automaton path silent = .ok a) :
    (info path silent).Ensures results s fun r results' s' =>
      ∃ before, (r, results', s') = (.ok (), sizeLine (determinizedSize a) ::
        alphabetLine a.rulebook.alphabet.toList :: before, s) := by
  apply Ensures.bind
  apply ensures_readAutomaton
  rw [h]
  apply Ensures.bind
  apply ensures_say
  apply Ensures.bind
  apply ensures_say
  apply Ensures.bind
  apply ensures_say
  apply Ensures.bind
  apply ensures_say
  apply Ensures.bind
  apply Ensures.timed
  apply ensures_determinized
  apply ensures_say
  exact ⟨_, rfl⟩

/-! ## What the tool says -/

/-- Arguments that ask what the automaton in a file holds. -/
structure Arguments.InfoOn (b : Arguments) (path : String) (silent : List String) : Prop where
  command : b.command = some .info
  operands : b.operands.reverse = [path]
  silent_eq : b.silent.getD [] = silent
  no_version : b.has .version = false

/-- Arguments that ask for the deterministic automaton of a file, in another file or as
    the result. -/
structure Arguments.DeterminizeOn (b : Arguments) (path : String) (silent : List String)
    (accepting : List Nat) (output : Option String) : Prop where
  command : b.command = some .determinize
  operands : b.operands.reverse = path :: output.toList
  silent_eq : b.silent.getD [] = silent
  accepting_eq : b.accepting = accepting
  no_version : b.has .version = false

variable {arguments : List String} {b : Arguments}

theorem ensures_perform_info (hask : b.InfoOn path silent) (h : s.automaton path silent = .ok a) :
    (perform b).Ensures [] s fun r results' s' =>
      ∃ before, (r, results', s') = (.ok (), sizeLine (determinizedSize a) ::
        alphabetLine a.rulebook.alphabet.toList :: before, s) := by
  rcases hask with ⟨hcommand, hoperands, hsilent, _⟩
  unfold perform
  rw [hcommand, hoperands, hsilent]
  exact ensures_withTimes (ensures_info h)

theorem ensures_perform_determinize (hask : b.DeterminizeOn path silent accepting output)
    (h : s.automaton path silent = .ok a) :
    (perform b).Ensures [] s fun r results' s' =>
      (r, results', s') = delivered output (determinizedText a accepting) [] s := by
  rcases hask with ⟨hcommand, hoperands, hsilent, haccepting, _⟩
  have houtput : output.toList.head? = output := by cases output <;> rfl
  unfold perform
  rw [hcommand, hoperands, hsilent, haccepting]
  simp only [houtput]
  apply ensures_withTimes
  apply ensures_determinize.imp
  intro r results' s' hr
  rw [h] at hr
  exact hr

/-- Of a file that can be read, the tool says how many states its deterministic automaton
    has, and which letters there are. If it is asked to write that automaton, for any
    accept states and to any place, then what it writes begins with a header in which
    the number of states is the same, and the number of transitions is that number times
    the number of letters. -/
theorem reported_sizes_agree (s : FileSystem) (path : String) (silent : List String)
    (a : Aldebaran.Automaton) (h : s.automaton path silent = .ok a) :
    (∀ arguments b, Arguments.read arguments = .ok b → b.InfoOn path silent →
      (run arguments).Ensures s fun o s' => s' = s ∧ o.exitCode = 0 ∧ ∃ before,
        o.results = before ++ alphabetLine a.rulebook.alphabet.toList ++
          sizeLine (determinizedSize a)) ∧
    ∀ accepting : List Nat, ∃ lines, ∀ arguments b output, Arguments.read arguments = .ok b →
      b.DeterminizeOn path silent accepting output →
      (run arguments).Ensures s fun o s' => ∃ r results,
        (r, results, s') = delivered output
          (headerLine (determinizedSize a * a.rulebook.alphabet.toList.length)
            (determinizedSize a) ++ lines) [] s ∧
        o.Shows r results := by
  refine ⟨fun arguments b hread hask => ?_, fun accepting => ?_⟩
  · apply (run_shows hread hask.no_version (ensures_perform_info hask h)).imp
    rintro o s' ⟨r, results, ⟨before, hr⟩, hresults, hcode⟩
    cases hr
    refine ⟨rfl, hcode, String.join before.reverse, ?_⟩
    rw [hresults]
    simp only [List.reverse_cons, String.join_append, String.join_cons, String.join_nil,
      String.append_empty]
  · rcases determinizedText_eq_header a accepting with ⟨lines, hlines⟩
    refine ⟨lines, fun arguments b output hread hask => ?_⟩
    rw [← hlines]
    exact run_shows hread hask.no_version (ensures_perform_determinize hask h)

/-- A file in which a letter and a silent label lead on, and a second letter back. -/
def turnFile : List UInt8 :=
  "des (0, 4, 3)\n(0, a, 1)\n(1, i, 2)\n(2, b, 0)\n(1, a, 1)\n".toUTF8.toList

/-- The automaton in this file. -/
def turn : Aldebaran.Automaton :=
  ⟨⟨0⟩, 3, .ofRules [⟨⟨0⟩, .character 'a', ⟨1⟩⟩, ⟨⟨1⟩, .epsilon, ⟨2⟩⟩, ⟨⟨2⟩, .character 'b', ⟨0⟩⟩,
    ⟨⟨1⟩, .character 'a', ⟨1⟩⟩]⟩

/-- A file system with it. -/
def turnFiles : FileSystem := .holding [("turn.aut", turnFile)]

/-- A command line that asks what the file holds. -/
def infoCommand : List String := ["info", "turn.aut", "-e", "i"]

/-- One that asks for the deterministic automaton, with an accept state that the file does
    not have. -/
def determinizeCommand : List String :=
  ["-q", "determinize", "--timings", "-a", "1,7", "turn.aut", "--epsilon=i"]

/-- Three sets are found, the empty one among them, and there are two letters. -/
theorem reported_sizes_agree_turn :
    turnFiles.automaton "turn.aut" ["i"] = .ok turn ∧
    (∃ before, ((run infoCommand).play turnFiles).1.results =
      before ++ "Alphabet: {a, b}\n" ++ "Number of determinized states: 3\n") ∧
    ∃ lines, ((run determinizeCommand).play turnFiles).1.results = "des (0, 6, 3)\n" ++ lines := by
  have hautomaton : turnFiles.automaton "turn.aut" ["i"] = .ok turn := by
    have hfile : Aldebaran.read [['i']] turnFile = .ok turn := by cbv
    exact FileSystem.automaton_eq_ok_iff.2 ⟨by decide, turnFile, rfl, hfile⟩
  have hsize : determinizedSize turn = 3 := by cbv
  have hletters : turn.rulebook.alphabet.toList = ['a', 'b'] := by cbv
  rcases reported_sizes_agree turnFiles "turn.aut" ["i"] turn hautomaton with ⟨hinfo, hheader⟩
  rcases hheader [1, 7] with ⟨lines, hlines⟩
  rw [hsize, hletters] at hinfo hlines
  refine ⟨hautomaton, ?_, lines, ?_⟩
  · rcases (hinfo infoCommand _ rfl ⟨rfl, rfl, rfl, rfl⟩).play with ⟨_, _, before, hresults⟩
    exact ⟨before, hresults⟩
  · rcases (hlines determinizeCommand _ none rfl ⟨rfl, rfl, rfl, rfl, rfl⟩).play with
      ⟨r, results, hdelivered, hresults, _⟩
    have hheader : headerLine (3 * ['a', 'b'].length) 3 = "des (0, 6, 3)\n" := by decide
    simp only [delivered, hheader, Prod.mk.injEq] at hdelivered
    rw [hresults, hdelivered.2.1, List.reverse_singleton, String.join_cons,
      String.join_nil, String.append_empty]

end Tool

end WordAutomata
