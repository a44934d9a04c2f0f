import WordAutomata.Tool.Session
import WordAutomata.Text.Control
import WordAutomata.Text.Lines

/-!
# Consoles

What a command has said so far: its results on one channel, and on the other
reports, warnings and errors. The records of a log go to the second channel as
well, in the order in which things happen. The lines of a record are indented
but for the first, and a record is stripped of control characters, since it
may quote what was found in a file.

A command that fails keeps what it has said. Its error is the last line.

## Main definitions

* `Tool.Console`: What was said, and the phases that were timed.
* `Tool.Activity`: Part of a command, which may fail.
* `Tool.Activity.noting`: Running something that keeps a log.
* `Tool.Activity.timed`: Timing a part of a command.
-/

namespace WordAutomata

namespace Tool

/-- What a command has said so far. -/
structure Console where
  /-- The most detailed level of records that is shown. -/
  limit : Option Level
  /-- The pieces of the results, the last one first. -/
  results : List String
  /-- The pieces of the reports, the last one first. -/
  reports : List String
  timing : Timing

/-- A console on which nothing was said. -/
def Console.empty (limit : Option Level) : Console := ⟨limit, [], [], .empty⟩

/-- Part of a command. It may fail with the text of an error. -/
abbrev Activity := ExceptT String (StateT Console Session)

namespace Activity

/-- Adds a piece to the results. -/
def say (text : String) : Activity Unit :=
  modify fun console => { console with results := text :: console.results }

/-- Adds a line to the results. -/
def sayLine (line : String) : Activity Unit := say (line ++ "\n")

/-- Adds a piece to the reports. -/
def report (text : String) : Activity Unit :=
  modify fun console => { console with reports := text :: console.reports }

/-- Adds a line to the reports. -/
def reportLine (line : String) : Activity Unit := report (line ++ "\n")

/-- A text whose lines but the first are indented. -/
def indented (text : String) : String :=
  "\n    ".intercalate ((Text.cut '\n' text.toList).map String.ofList)

/-- A record as it is shown. A command to the terminal that lacks its end takes the
    end of the line with it, but never reaches into the next record. -/
def recordText (r : Record) : String :=
  let text := "[" ++ r.level.name ++ "] " ++ indented r.message ++ "\n"
  String.ofList (Text.stripped text.toList)

/-- Runs something that keeps a log, and reports the records. -/
def noting {α : Type} (f : Log → α × Log) : Activity α := do
  let (a, log) := f (.empty (← get).limit)
  log.records.forM fun r => report (recordText r)
  return a

/-- Requests something of the session. -/
def request {α : Type} (session : Session α) : Activity α :=
  ExceptT.lift (StateT.lift session)

/-- Reads the clock. -/
def now : Activity Duration := request (.clock .done)

/-- Runs a part of the command and times it. A part that fails is not timed, of
    which there is a warning. -/
def timed {α : Type} (name : String) (part : Activity α) : Activity α := do
  let timer := Timer.start name (← now)
  try
    let a ← part
    let stop ← now
    let timing := (← get).timing
    let (timing, _) ← noting fun log =>
      let (timing, timer, log) := timing.finish timer stop log
      ((timing, timer), log)
    modify fun console => { console with timing }
    pure a
  catch e =>
    noting fun log => ((), timer.abandon log)
    throw e

end Activity

end Tool

end WordAutomata
