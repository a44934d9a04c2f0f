import WordAutomata.Tool.Arguments
import WordAutomata.Tool.Console
import WordAutomata.Tool.Path
import WordAutomata.Aldebaran.Read
import WordAutomata.Aldebaran.Write
import WordAutomata.Nfa.Determinize
import WordAutomata.Dfa.Renumber
import WordAutomata.Design

/-!
# Commands

The commands of the tool. Each reads an automaton from an Aldebaran file.
`info` counts what it holds, `accepts` says of words whether it accepts them,
`determinize` writes its deterministic automaton.

The accept states are given with the command, since the format has none. They
need not be states of the file. A word that a determinized automaton cannot
read to the end is rejected.

## Main definitions

* `Tool.readAutomaton`: The automaton in a file.
* `Tool.info`, `Tool.accepts`, `Tool.determinize`: The commands.
* `Tool.run`: What the tool does with its arguments.
-/

namespace WordAutomata

namespace Aldebaran

/-- The kind of a fault of a number, as a report shows it. -/
def numberReport : NumberError → String
  | .empty => "Empty"
  | .invalidDigit => "InvalidDigit"
  | .tooLarge => "PosOverflow"

/-- A kind of error with a text in parentheses. -/
def tagged (kind text : String) : String := kind ++ "(" ++ Text.quoted text ++ ")"

/-- A fault of a file as a report shows it. -/
def ReadError.report : ReadError → String
  | .invalidHeader fault => tagged "InvalidHeader" fault.message
  | .invalidTransition line => tagged "InvalidTransition" (String.ofList line)
  | .invalidLabel label => tagged "InvalidLabel" (String.ofList label)
  | .invalidNumber fault => "ParseIntError \x7b kind: " ++ numberReport fault ++ " \x7d"
  | .invalidText =>
    "Error \x7b kind: InvalidData, message: " ++ Text.quoted invalidTextMessage ++ " \x7d"

/-- A fault of writing as a report shows it. -/
def WriteError.report (e : WriteError) : String :=
  "Error \x7b kind: WriteZero, message: " ++ Text.quoted e.message ++ " \x7d"

end Aldebaran

namespace Tool

open Activity

/-- The end of a session: the exit code, and what was said. -/
structure Outcome where
  exitCode : Nat
  results : String
  reports : String

/-- The value, or failure with the text of the error. -/
def orFail {ε α : Type} (text : ε → String) : Except ε α → Activity α
  | .ok a => pure a
  | .error e => throw (text e)

/-- The extension of an Aldebaran file. -/
def extension : List Char := ['a', 'u', 't']

/-- The automaton in the file with a path. -/
def readAutomaton (path : String) (silent : List String) : Activity Aldebaran.Automaton := do
  if Path.extension? path ≠ some extension then
    throw (Text.quoted "Unsupported file format, expected an .aut file.")
  let contents ← orFail FileError.report (← request (.read path .done))
  timed "read_aut" do
    let result ← noting (Aldebaran.readNoting (silent.map String.toList) contents)
    orFail Aldebaran.ReadError.report result

/-- Determinizes, with a log of the time it takes. -/
def determinized (a : Nfa StateIndex) : Activity (Dfa (SortedSet StateIndex)) := do
  let start ← now
  let found := a.discover [a.startSet]
  let stop ← now
  noting fun log => (a.ofDiscovery found Nfa.nodup_place_edges,
    Nfa.noteDeterminized found (.between start stop) log)

/-- Counts what an automaton holds. -/
def info (path : String) (silent : List String) : Activity Unit := do
  let automaton ← readAutomaton path silent
  let rules := automaton.rulebook.rules
  sayLine ("Number of states: " ++ describe automaton.states)
  sayLine ("Number of transitions: " ++ describe rules.length)
  sayLine ("Number of epsilon transitions: " ++
    describe (rules.countP fun r => r.symbol.isEpsilon))
  sayLine ("Alphabet: " ++ braced (automaton.rulebook.alphabet.toList.map Char.toString))
  let d ← timed "determinize" (determinized (automaton.toNfa []))
  sayLine ("Number of determinized states: " ++ describe d.states.size)

/-- The line that says whether a word is accepted. -/
def verdictLine (word : String) (accepted : Bool) : String :=
  word ++ ": " ++ if accepted then "accept" else "reject"

/-- Whether a word is accepted. One that cannot be read to the end is not. -/
def judge (design : Design StateIndex) (word : String) (log : Log) : Bool × Log :=
  match design.judge word.toList log with
  | (.ok accepted, log) => (accepted, log)
  | (.error e, log) => (false, log.note .debug fun _ => e.message)

/-- Says of words whether an automaton accepts them. -/
def accepts (path : String) (silent : List String) (accepting : List Nat) (determinize : Bool)
    (words : List String) : Activity Unit := do
  let automaton ← readAutomaton path silent
  let a := automaton.toNfa (accepting.map Index.mk)
  let design ←
    if determinize then do
      let d ← timed "determinize" do return (← determinized a).renumber
      noting fun log => ((), log.note .info fun _ =>
        "Determinized into " ++ describe d.states.size ++ " states")
      pure (Design.dfa d)
    else pure (Design.nfa a)
  timed "accepts" do
    words.forM fun word => do sayLine (verdictLine word (← noting (judge design word)))

/-- Writes the deterministic automaton of a file to another file, or as a
    result. -/
def determinize (path : String) (silent : List String) (accepting : List Nat)
    (output : Option String) : Activity Unit := do
  let automaton ← readAutomaton path silent
  let a := automaton.toNfa (accepting.map Index.mk)
  let d ← timed "determinize" do return (← determinized a).renumber
  reportLine ("Accept states: " ++ ",".intercalate (d.accepting.toList.map describe))
  match output with
  | none => say (← orFail Aldebaran.WriteError.report (← noting (Aldebaran.write none d)))
  | some file =>
    orFail FileError.report (← request (.save file (Aldebaran.text d) .done))
    let _ ← noting (Aldebaran.write none d)

/-- What the tool does with its arguments, unless it is asked for its version. -/
def perform (a : Arguments) : Activity Unit := do
  let silent := a.silent.getD []
  match a.command, a.operands.reverse with
  | some .info, path :: _ => info path silent
  | some .accepts, path :: words =>
    accepts path silent a.accepting (a.has .determinize) words
  | some .determinize, path :: rest => determinize path silent a.accepting rest.head?
  | _, _ => pure ()
  if a.has .timings then (← get).timing.lines.forM reportLine

/-- The name of the tool with its version. -/
def versionText : String := "kleene 1.0.0"

/-- What is said about the use of the tool. -/
def usageText : String :=
  "Usage: kleene [OPTIONS] [COMMAND]\n\nCommands:\n" ++
  "  info <FILE> [-e LABELS]\n" ++
  "  accepts <FILE> [WORD]... [-a STATES] [-e LABELS] [--determinize]\n" ++
  "  determinize <FILE> [OUTPUT] [-a STATES] [-e LABELS]\n\nOptions:\n" ++
  "  -q, --quiet\n  -v, --verbose\n  -d, --debug\n  -t, --trace\n" ++
  "      --timings\n      --version\n  -h, --help\n"

/-- The outcome of an activity. An error is the last line of the reports. -/
def conclude (result : Except String Unit × Console) : Outcome :=
  let (result, console) := result
  let results := String.join console.results.reverse
  let reports := String.join console.reports.reverse
  match result with
  | .ok () => ⟨0, results, reports⟩
  | .error e => ⟨1, results, reports ++ "Error: " ++ e ++ "\n"⟩

/-- The session of the tool for some arguments. -/
def run (arguments : List String) : Session Outcome :=
  match Arguments.read arguments with
  | .error (.usage _) => .done ⟨2, "", usageText⟩
  | .error _ => .done ⟨0, usageText, ""⟩
  | .ok a =>
    if a.has .version then .done ⟨0, "", versionText ++ "\n"⟩
    else do return conclude (← (perform a).run.run (.empty a.limit))

end Tool

end WordAutomata
