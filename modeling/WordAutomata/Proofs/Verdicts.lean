import WordAutomata.Proofs.CommandOutcomes
import WordAutomata.Proofs.DeterminizedPaths
import Mathlib

/-!
# Verdicts on Words

Whether an automaton accepts a word can be found out with it or with its deterministic
automaton. The tool has an option for that, and the option makes no difference: the
same lines are said for the same words, and a file that cannot be read is the same
error.

The two are not asked alike. A deterministic automaton has rules for the letters of
the file only, and where it lacks one there is no answer. The tool then rejects the
word. That agrees with the other automaton, which is left without states after such
a letter and accepts nothing that begins so.

## Main definitions

* `Tool.FileSystem.verdicts`: The lines that are said of words, or the error.
* `Tool.Arguments.AskOf`: Arguments that ask for them.
* `Tool.Outcome.Tells`: A session that ends by saying them.

## Theorems

* `Tool.judge_determinized`: Both kinds of automata get the same answers.
* `Tool.ensures_accepts`: What is said does not depend on which one is asked.
* `Tool.run_tells_verdicts`: Nor does what the tool says depend on any flag.
-/

namespace WordAutomata

namespace Tool

open Activity

variable {path : String} {silent : List String} {accepting : List Nat} {words : List String}
  {results : List String} {s : FileSystem}

/-- The lines that are said of words, one for each, or why the file cannot be read. -/
def FileSystem.verdicts (s : FileSystem) (path : String) (silent : List String)
    (accepting : List Nat) (words : List String) : Except String (List String) :=
  (s.automaton path silent).map fun a => words.map fun word =>
    verdictLine word ((a.toNfa (accepting.map Index.mk)).accepts word.toList) ++ "\n"

/-- An automaton is asked with its own rules. -/
theorem judge_nfa (a : Nfa StateIndex) (word : String) (log : Log) :
    (judge (.nfa a) word log).1 = a.accepts word.toList := by
  have hjudge : (judge (.nfa a) word log).1 = (a.judge word.toList log).1 := rfl
  rw [hjudge, Nfa.judge_fst, Nfa.accepts_eq]

/-- Its deterministic automaton gives the same answers, once a word without an answer is
    rejected. -/
theorem judge_determinized (a : Nfa StateIndex) (word : String) (log : Log) :
    (judge (.dfa a.determinize.renumber) word log).1 = a.accepts word.toList := by
  have hiff := Nfa.judge_renumber_determinize_iff (a := a) (w := word.toList) log
  have hdesign : (Design.dfa a.determinize.renumber).judge word.toList log =
      a.determinize.renumber.judge word.toList log := rfl
  rw [judge, hdesign, Bool.eq_iff_iff, ← hiff]
  -- No answer becomes a no, and that is no yes either.
  rcases a.determinize.renumber.judge word.toList log with ⟨_ | accepted, log'⟩
  · simp only [Bool.false_eq_true, reduceCtorEq]
  · simp only [Except.ok.injEq]

/-- Of each word there is a line, in the order of the words. -/
theorem ensures_judged {design : Design StateIndex} {f : String → Bool}
    (hjudge : ∀ word log, (judge design word log).1 = f word)
    {post : Except String Unit → List String → FileSystem → Prop}
    (h : post (.ok ())
      ((words.map fun word => verdictLine word (f word) ++ "\n").reverse ++ results) s) :
    (words.forM fun word => do
      sayLine (verdictLine word (← noting (judge design word)))).Ensures results s post := by
  induction words generalizing results with
  | nil => exact ensures_pure h
  | cons word words ih =>
      apply Ensures.bind
      apply Ensures.bind
      apply ensures_noting
      intro limit
      rw [hjudge]
      apply ensures_say
      apply ih
      -- The results are kept with the last one first.
      rw [List.map_cons, List.reverse_cons, List.append_assoc] at h
      exact h

/-- What is said does not depend on which automaton is asked. -/
theorem ensures_accepts (determinize : Bool) :
    (accepts path silent accepting determinize words).Ensures results s fun r results' s' =>
      (r, results', s') = match s.verdicts path silent accepting words with
        | .error e => (.error e, results, s)
        | .ok lines => (.ok (), lines.reverse ++ results, s) := by
  apply Ensures.bind
  apply ensures_readAutomaton
  unfold FileSystem.verdicts
  cases s.automaton path silent with
  | error e => rfl
  | ok a =>
      cases determinize with
      | false =>
          apply Ensures.bind
          apply ensures_pure
          apply Ensures.timed
          exact ensures_judged (judge_nfa _) rfl
      | true =>
          apply Ensures.bind
          apply Ensures.timed
          apply Ensures.bind
          apply ensures_determinized
          apply ensures_pure
          apply Ensures.bind
          apply ensures_noting
          intro limit
          apply Ensures.bind
          apply ensures_pure
          apply Ensures.timed
          exact ensures_judged (judge_determinized _) rfl

/-- Arguments that ask, of some words, whether the automaton in a file accepts them. -/
structure Arguments.AskOf (a : Arguments) (path : String) (silent : List String)
    (accepting : List Nat) (words : List String) : Prop where
  command : a.command = some .accepts
  operands : a.operands.reverse = path :: words
  silent_eq : a.silent.getD [] = silent
  accepting_eq : a.accepting = accepting
  no_version : a.has .version = false

/-- A session ends with lines as its results, or with an error as the last line of its
    reports and without results. -/
def Outcome.Tells (o : Outcome) : Except String (List String) → Prop
  | .error e => o.exitCode = 1 ∧ o.results = "" ∧
      ∃ before, o.reports = before ++ "Error: " ++ e ++ "\n"
  | .ok lines => o.exitCode = 0 ∧ o.results = String.join lines

/-- The command is performed, and after it the times are reported if they are asked for. -/
theorem ensures_perform {a : Arguments} (h : a.AskOf path silent accepting words) :
    (perform a).Ensures [] s fun r results' s' =>
      (r, results', s') = match s.verdicts path silent accepting words with
        | .error e => (.error e, [], s)
        | .ok lines => (.ok (), lines.reverse, s) := by
  rcases h with ⟨hcommand, hoperands, hsilent, haccepting, _⟩
  unfold perform
  rw [hcommand, hoperands, hsilent, haccepting]
  apply ensures_withTimes
  apply (ensures_accepts (a.has .determinize)).imp
  intro r results' s' hr
  rw [hr]
  cases s.verdicts path silent accepting words with
  | error e => rfl
  | ok lines => simp only [List.append_nil]

/-- What the tool says of words does not depend on the flags it is given. -/
theorem run_tells {arguments : List String} {a : Arguments}
    (hread : Arguments.read arguments = .ok a) (h : a.AskOf path silent accepting words) :
    (run arguments).Ensures s fun o s' =>
      s' = s ∧ o.Tells (s.verdicts path silent accepting words) := by
  apply (run_shows hread h.no_version (ensures_perform h)).imp
  rintro o s' ⟨r, results', hr, hresults, hcode⟩
  cases hverdicts : s.verdicts path silent accepting words with
  | error e =>
      rw [hverdicts] at hr
      cases hr
      exact ⟨rfl, hcode.1, hresults, hcode.2⟩
  | ok lines =>
      rw [hverdicts] at hr
      cases hr
      rw [List.reverse_reverse] at hresults
      exact ⟨rfl, hcode, hresults⟩

/-- Two sessions that tell the same end alike. -/
theorem Outcome.Tells.unique {o o' : Outcome} {said : Except String (List String)}
    (h : o.Tells said) (h' : o'.Tells said) :
    o.exitCode = o'.exitCode ∧ o.results = o'.results := by
  cases said with
  | error e => exact ⟨h.1.trans h'.1.symm, h.2.1.trans h'.2.1.symm⟩
  | ok lines => exact ⟨h.1.trans h'.1.symm, h.2.trans h'.2.symm⟩

/-- Words are judged alike by an automaton and by its deterministic one, of which a word
    has no answer if one of its letters is on no rule. So it does not matter which one
    the command asks. The same line is said of each word, in order, and if the file
    cannot be read the error is the same. Two command lines that ask of the same words
    have the same results and the same exit code, with any flags. -/
theorem run_tells_verdicts (s : FileSystem) (path : String) (silent : List String)
    (accepting : List Nat) (words : List String) :
    (∀ (a : Nfa StateIndex) (w : List Char),
      (a.determinize.renumber.accepts w = .ok true ↔ a.accepts w = true) ∧
      ((∃ e, a.determinize.renumber.accepts w = .error e) ↔ ∃ c ∈ w, ¬ a.Reads c)) ∧
    (∀ determinize results,
      (accepts path silent accepting determinize words).Ensures results s fun r results' s' =>
        (r, results', s') = match s.verdicts path silent accepting words with
          | .error e => (.error e, results, s)
          | .ok lines => (.ok (), lines.reverse ++ results, s)) ∧
    (∀ arguments a, Arguments.read arguments = .ok a → a.AskOf path silent accepting words →
      (run arguments).Ensures s fun o s' =>
        s' = s ∧ o.Tells (s.verdicts path silent accepting words)) ∧
    ∀ arguments arguments' a a', Arguments.read arguments = .ok a →
      Arguments.read arguments' = .ok a' → a.AskOf path silent accepting words →
      a'.AskOf path silent accepting words →
        ((run arguments).play s).1.exitCode = ((run arguments').play s).1.exitCode ∧
        ((run arguments).play s).1.results = ((run arguments').play s).1.results := by
  refine ⟨fun a w => ⟨Nfa.judge_renumber_determinize_iff .silent,
    Nfa.accepts_renumber_determinize_eq_error_iff⟩, fun determinize results =>
    ensures_accepts determinize, fun arguments a hread h => run_tells hread h, ?_⟩
  intro arguments arguments' a a' hread hread' h h'
  exact (run_tells hread h).play.2.unique (run_tells hread' h').play.2

/-- A letter that may be repeated, and a way back to the start that is silent. -/
def repeatFile : List UInt8 := "des (0, 2, 2)\n(0, a, 1)\n(1, tau, 0)\n".toUTF8.toList

/-- The automaton in this file. -/
def repeated : Aldebaran.Automaton :=
  ⟨⟨0⟩, 2, .ofRules [⟨⟨0⟩, .character 'a', ⟨1⟩⟩, ⟨⟨1⟩, .epsilon, ⟨0⟩⟩]⟩

/-- A file system with it. -/
def repeatFiles : FileSystem := .holding [("repeat.aut", repeatFile)]

/-- A command line that asks of three words. -/
def plainCommand : List String := ["accepts", "repeat.aut", "aa", "ab", "", "-a", "1,7"]

/-- One that asks of the same words with other flags. -/
def flaggedCommand : List String :=
  ["-q", "accepts", "--determinize", "-a", "1", "repeat.aut", "aa", "ab", "", "--accept=7",
    "--timings"]

/-- What both are read as, but for the flags. -/
def repeatArguments (outer flags : List Flag) : Arguments :=
  ⟨some .accepts, outer, flags, none, [1, 7], ["", "ab", "aa", "repeat.aut"], none, false⟩

/-- Whether it is determinized or not, repetitions are accepted, but not the empty word nor
    a word that goes on with another letter. That an accept state has a number beyond
    the file does not matter. -/
theorem run_tells_verdicts_repeat :
    (∃ a, Arguments.read plainCommand = .ok a ∧
      a.AskOf "repeat.aut" [] [1, 7] ["aa", "ab", ""]) ∧
    (∃ a, Arguments.read flaggedCommand = .ok a ∧ a.has .determinize = true ∧
      a.AskOf "repeat.aut" [] [1, 7] ["aa", "ab", ""]) ∧
    ((run plainCommand).play repeatFiles).1.results =
      "aa: accept\nab: reject\n: reject\n" ∧
    ((run flaggedCommand).play repeatFiles).1.results =
      "aa: accept\nab: reject\n: reject\n" := by
  have hread : Arguments.read plainCommand = .ok (repeatArguments [] []) := rfl
  have hread' : Arguments.read flaggedCommand =
      .ok (repeatArguments [.quiet] [.timings, .determinize]) := rfl
  have hask : (repeatArguments [] []).AskOf "repeat.aut" [] [1, 7] ["aa", "ab", ""] :=
    ⟨rfl, rfl, rfl, rfl, rfl⟩
  have hask' : (repeatArguments [.quiet] [.timings, .determinize]).AskOf "repeat.aut" [] [1, 7]
      ["aa", "ab", ""] := ⟨rfl, rfl, rfl, rfl, rfl⟩
  have hautomaton : repeatFiles.automaton "repeat.aut" [] = .ok repeated := by
    have hfile : Aldebaran.read [] repeatFile = .ok repeated := by cbv
    exact FileSystem.automaton_eq_ok_iff.2 ⟨by decide, repeatFile, rfl, hfile⟩
  have hverdicts : repeatFiles.verdicts "repeat.aut" [] [1, 7] ["aa", "ab", ""] =
      .ok ["aa: accept\n", "ab: reject\n", ": reject\n"] := by
    rw [FileSystem.verdicts, hautomaton]
    cbv
  rcases run_tells_verdicts repeatFiles "repeat.aut" [] [1, 7] ["aa", "ab", ""] with
    ⟨_, _, htells, hsame⟩
  have hplain := (htells _ _ hread hask).play.2
  rw [hverdicts] at hplain
  refine ⟨⟨_, hread, hask⟩, ⟨_, hread', rfl, hask'⟩, hplain.2, ?_⟩
  rw [← (hsame _ _ _ _ hread hread' hask hask').2]
  exact hplain.2

end Tool

end WordAutomata
