import WordAutomata.Tool.Command

/-!
# The Program

Performs the session of the tool on the file system, says what it has to say,
and exits with its code. All decisions are made in the session.
-/

namespace WordAutomata

namespace Tool

/-- The number of an error in the operating system. Some calls give it negated. -/
def FileError.number (code : UInt32) : Nat := min code.toNat (-code).toNat

/-- The error with a number, and a text for numbers that are not known. -/
def FileError.ofNumber (code : UInt32) (text : String) : FileError :=
  (known.find? fun e => e.code = number code).getD ⟨number code, "Other", text⟩

/-- The reason for which the file system refused a request. -/
def FileError.ofError : IO.Error → FileError
  | .noFileOrDirectory .. => .notFound
  | .permissionDenied _ code text => ofNumber code text
  | .inappropriateType _ code text => ofNumber code text
  | .invalidArgument _ code text => ofNumber code text
  | .resourceExhausted _ code text => ofNumber code text
  | .otherError code text => ofNumber code text
  | e => ⟨0, "Other", e.toString⟩

/-- Performs the requests of a session. -/
def Session.perform {α : Type} : Session α → IO α
  | done a => pure a
  | read path next => do
    let answer ← try pure (.ok (← IO.FS.readBinFile path).toList)
      catch e => pure (.error (FileError.ofError e))
    (next answer).perform
  | save path text next => do
    let answer ← try pure (.ok (← IO.FS.writeFile path text))
      catch e => pure (.error (FileError.ofError e))
    (next answer).perform
  | clock next => do (next ⟨← IO.monoMsNow⟩).perform

end Tool

end WordAutomata

/-- Runs the tool. -/
def main (arguments : List String) : IO UInt32 := do
  let outcome ← (WordAutomata.Tool.run arguments).perform
  IO.print outcome.results
  IO.eprint outcome.reports
  return UInt32.ofNat outcome.exitCode
