import WordAutomata.Log
import WordAutomata.Describe

/-!
# Timing

How long the named phases of a job took. A timer measures one phase; the
timing collects the phases that were finished, in that order. A timer may be
finished more than once and counts each time. One that is given up without
ever being finished leaves a warning, for then a phase is missing from the
timing.

No clock is read here. Whoever has one passes its readings.

## Main definitions

* `Duration`: A time in milliseconds.
* `Timer`: A phase being measured.
* `Timing`: The phases finished so far.
* `Timing.finish`, `Timer.abandon`: The ends of a timer.
-/

namespace WordAutomata

/-- A time in milliseconds, since some moment or between two. -/
structure Duration where
  milliseconds : Nat
deriving DecidableEq, Inhabited

namespace Duration

/-- The time from one reading of a clock to a later one. -/
def between (start stop : Duration) : Duration := ⟨stop.milliseconds - start.milliseconds⟩

/-- The time in seconds, with three places. -/
def text (d : Duration) : String :=
  let places := describe (d.milliseconds % 1000)
  describe (d.milliseconds / 1000) ++ "." ++ "".pushn '0' (3 - places.length) ++ places ++ "s"

end Duration

/-- A phase with its duration, as a message. -/
def phaseText (name : String) (d : Duration) : String := "Time " ++ name ++ ": " ++ d.text

/-- A phase that is being measured. -/
structure Timer where
  name : String
  /-- The reading of the clock at the start. -/
  started : Duration
  /-- Whether the phase was ever finished. -/
  finished : Bool
deriving DecidableEq, Inhabited

/-- The phases that were finished, the last one first. -/
structure Timing where
  newestFirst : List (String × Duration)
deriving DecidableEq, Inhabited

namespace Timer

/-- Starts to measure a phase. -/
def start (name : String) (now : Duration) : Timer := ⟨name, now, false⟩

/-- Gives up a timer. One that was never finished leaves a warning. -/
def abandon (timer : Timer) (log : Log) : Log :=
  if timer.finished then log
  else log.note .warn fun _ => "Timer " ++ timer.name ++ " was dropped before 'finish()'"

end Timer

namespace Timing

/-- A timing without phases. -/
def empty : Timing := ⟨[]⟩

/-- The phases that were finished, in order. -/
def phases (timing : Timing) : List (String × Duration) := timing.newestFirst.reverse

/-- Finishes a phase. -/
def finish (timing : Timing) (timer : Timer) (now : Duration) (log : Log) :
    Timing × Timer × Log :=
  let d := Duration.between timer.started now
  (⟨(timer.name, d) :: timing.newestFirst⟩, { timer with finished := true },
    log.note .info fun _ => phaseText timer.name d)

/-- The phases as messages, in order. -/
def lines (timing : Timing) : List String :=
  timing.phases.map fun (name, d) => phaseText name d

end Timing

end WordAutomata
