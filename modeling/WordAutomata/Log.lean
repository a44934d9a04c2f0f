/-!
# Log

Records of what happened on the way to a result, each with a level. A log has
a limit, the most detailed level that it keeps; a record beyond the limit is
dropped before its text is made, so tracing costs nothing where nobody reads
the traces.

A log is a value. An activity that reports takes a log and returns one with
its records added, and results never depend on what a log holds.

## Main definitions

* `Level`: How detailed a record is.
* `Log`: A limit and the records kept so far.
* `Log.note`: Adding a record.
-/

namespace WordAutomata

/-- How detailed a record is, from the most important to the most detailed. -/
inductive Level where
  | error
  | warn
  | info
  | debug
  | trace
deriving DecidableEq

namespace Level

/-- The place of a level, the most important one first. -/
def rank : Level → Nat
  | error => 0
  | warn => 1
  | info => 2
  | debug => 3
  | trace => 4

/-- The name of a level in capitals. -/
def name : Level → String
  | error => "ERROR"
  | warn => "WARN"
  | info => "INFO"
  | debug => "DEBUG"
  | trace => "TRACE"

end Level

/-- A message with its level. -/
structure Record where
  level : Level
  message : String
deriving DecidableEq

/-- The records that were kept, under a limit. -/
structure Log where
  /-- The most detailed level that is kept, or none if nothing is. -/
  limit : Option Level
  /-- The records that were kept, the last one first. -/
  newestFirst : List Record
deriving DecidableEq

namespace Log

/-- A log without records. -/
def empty (limit : Option Level) : Log := ⟨limit, []⟩

/-- A log that keeps nothing. -/
def silent : Log := empty none

/-- Whether records of a level are kept. -/
def keeps (log : Log) (level : Level) : Bool :=
  match log.limit with
  | none => false
  | some limit => level.rank ≤ limit.rank

/-- Adds a record, whose message is only made if the record is kept. -/
def note (log : Log) (level : Level) (message : Unit → String) : Log :=
  if log.keeps level then { log with newestFirst := ⟨level, message ()⟩ :: log.newestFirst }
  else log

/-- Adds a record for each item of a list, in order. -/
def noteEach {α : Type u} (log : Log) (level : Level) (message : α → String) (items : List α) :
    Log :=
  if log.keeps level then items.foldl (fun log a => log.note level fun _ => message a) log
  else log

/-- The records in the order in which they were made. -/
def records (log : Log) : List Record := log.newestFirst.reverse

/-- The records of one level, in order. -/
def recordsOf (log : Log) (level : Level) : List Record :=
  log.records.filter fun r => r.level = level

@[simp]
theorem limit_note {log : Log} {level : Level} {message : Unit → String} :
    (log.note level message).limit = log.limit := by
  unfold note
  split <;> rfl

end Log

end WordAutomata
