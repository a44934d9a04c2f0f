import WordAutomata.Describe
import WordAutomata.Log

/-!
# Random Trials

A test that is run many times on random choices. The seed of the choices is
logged, so that a failure can be repeated.

## Main definitions

* `Random.trials`: Running a test a number of times.
-/

universe u

namespace WordAutomata

namespace Random

/-- Runs a test a number of times, one after the other, after a record of the
    seed. -/
def trials {σ : Type u} (seed : Nat) (iterations : Nat) (test : σ → σ) (state : σ) (log : Log) :
    σ × Log :=
  ((List.range iterations).foldl (fun state _ => test state) state,
    log.note .info fun _ => "random_test seed: " ++ describe seed)

end Random

end WordAutomata
