import WordAutomata.Proofs.EndlessRuns

/-!
# Deterministic Pushdown Runs

A run goes from rest to rest. It follows epsilon rules until none applies, takes
the rule for the next character, follows epsilon rules again, and so on to the
end of the word. If this goes wrong anywhere, because epsilon rules never end or
because there is no rule for a character, the run is stuck from there on.

`Settles` says that nothing goes wrong. It is about rules alone: it knows neither
marks nor stuck configurations. A run that is not stuck is where `Settles` leads,
and there is one such place at most.

## Main definitions

* `Pushdown.Settles`: Reading a word leads from a configuration to rest.

## Theorems

* `Dpda.Rulebook.final_eq_iff`: Where following epsilon rules ends.
* `Dpda.Run.configuration_readWord_iff`: Runs that are not stuck settle.
* `Dpda.accepts_iff`: A word is accepted if the run settles in an accept state.
-/

universe u

namespace WordAutomata

open Pushdown

variable {S : Type u} [Ordered S]

namespace Pushdown

variable {rules : List (Rule S)} {c d e : Configuration S} {symbol : Symbol}

/-- A word can be read from a configuration, with epsilon rules followed to their
    end before each character and after the last one, and leads to the other. -/
inductive Settles (rules : List (Rule S)) :
    Configuration S → List Char → Configuration S → Prop
  | rest {c d : Configuration S} : EndsAt rules c d → Settles rules c [] d
  | read {c d e f : Configuration S} {a : Char} {word : List Char} :
      EndsAt rules c d → Step rules (.character a) d e → Settles rules e word f →
        Settles rules c (a :: word) f

/-- No rule applies to a stuck configuration. -/
theorem Step.not_isStuck (h : Step rules symbol c d) : c.isStuck = false := by
  rcases h with ⟨r, _, happ, _⟩
  have hstate := (Rule.applies_iff.1 happ).1.1
  rw [Configuration.isStuck, hstate]
  rfl

theorem EndsAt.eq_of_isStuck (h : EndsAt rules c d) (hc : c.isStuck = true) : d = c := by
  rcases Relation.ReflTransGen.cases_head h.1 with rfl | ⟨m, hm, _⟩
  · rfl
  · rw [hm.not_isStuck] at hc
    cases hc

theorem Settles.head {w : List Char} (hstep : Step rules .epsilon c d) (h : Settles rules d w e) :
    Settles rules c w e := by
  cases h with
  | rest hends => exact .rest (hends.head hstep)
  | read hends hread hrest => exact .read (hends.head hstep) hread hrest

/-- What is stuck stays where it is. -/
theorem Settles.eq_of_isStuck {w : List Char} (h : Settles rules c w d) (hc : c.isStuck = true) :
    d = c := by
  cases h with
  | rest hends => exact hends.eq_of_isStuck hc
  | read hends hread _ =>
      rw [hends.eq_of_isStuck hc] at hread
      rw [hread.not_isStuck] at hc
      cases hc

end Pushdown

theorem Configuration.not_isStuck_of_isIn {c : Configuration S} {states : SortedSet S}
    (h : c.isIn states = true) : c.isStuck = false := by
  rcases isIn_iff.1 h with ⟨s, _, hstate⟩
  rw [isStuck, hstate]
  rfl

namespace Dpda

namespace Rulebook

variable {b : Rulebook S} {c d e : Configuration S} {symbol : Symbol}

/-- Following epsilon rules ends, without getting stuck, where they end. -/
theorem final_eq_iff (hd : d.isStuck = false) :
    (b.freeRun c).final = d ↔ EndsAt b.rules c d := by
  cases b.freeRun_outcome c with
  | ended _ hends =>
      constructor
      · rintro rfl
        exact hends
      · exact endsAt_unique hends
  | endless _ _ _ hfinal hendless =>
      rcases hfinal with ⟨e, _, hstuck⟩
      constructor
      · rintro rfl
        rw [hstuck] at hd
        cases hd
      · intro hends
        exact absurd hendless (not_endless_of_endsAt hends)

theorem next_eq_ok_iff : b.next c symbol = .ok d ↔ Step b.rules symbol c d := by
  rw [step_iff]
  unfold next
  cases b.rule? c symbol with
  | none => simp only [reduceCtorEq, false_and, exists_false]
  | some r => simp only [Except.ok.injEq, Option.some.injEq, exists_eq_left', eq_comm]

/-- From rest, a word is read by the rule for its first character and then on. -/
theorem settles_cons_iff {a : Char} {w : List Char} (hends : EndsAt b.rules c d)
    (hstep : Step b.rules (.character a) d e) {f : Configuration S} :
    Settles b.rules c (a :: w) f ↔ Settles b.rules e w f := by
  constructor
  · intro h
    cases h with
    | read hends' hstep' hrest =>
        -- There is one end, and one rule for the character there.
        rw [endsAt_unique hends' hends] at hstep'
        rw [step_rightUnique hstep hstep']
        exact hrest
  · exact .read hends hstep

end Rulebook

variable [Describe S] {a : Dpda S} {log : Log}

namespace Run

variable {c d : Configuration S}

theorem automaton_readWord {run : Run S} {w : List Char} :
    (run.readWord w).automaton = run.automaton := by
  induction w generalizing run with
  | nil => rfl
  | cons x w ih =>
      rw [readWord]
      by_cases hstuck : run.isStuck = true
      · rw [if_pos hstuck]
      · rw [if_neg hstuck, ih, read, if_neg hstuck]
        rfl

theorem readWord_of_isStuck {run : Run S} (h : run.isStuck = true) (w : List Char) :
    run.readWord w = run := by
  cases w with
  | nil => rfl
  | cons x w => rw [readWord, if_pos h]

/-- A run that is not stuck reads a character by going on from what follows it. -/
theorem readWord_cons {run : Run S} (h : run.isStuck = false) (x : Char) (w : List Char) :
    ∃ log, run.readWord (x :: w) =
      (run.automaton.runFrom (run.afterCharacter x).1 log).readWord w := by
  rw [readWord, h, if_neg Bool.false_ne_true, read, h, if_neg Bool.false_ne_true]
  exact ⟨_, rfl⟩

theorem afterCharacter_of_ok {run : Run S} {x : Char}
    (h : run.automaton.rulebook.next run.configuration (.character x) = .ok d) :
    (run.afterCharacter x).1 = d := by
  rw [afterCharacter, h]

theorem afterCharacter_of_error {run : Run S} {x : Char} {e : MissingRule (Configuration S)}
    (h : run.automaton.rulebook.next run.configuration (.character x) = .error e) :
    (run.afterCharacter x).1 = run.configuration.stuck := by
  rw [afterCharacter, h]

/-- A run that is not stuck is where reading the word settles. -/
theorem configuration_readWord_iff {w : List Char} (hd : d.isStuck = false) :
    ((a.runFrom c log).readWord w).configuration = d ↔ Settles a.rulebook.rules c w d := by
  induction w generalizing c log with
  | nil =>
      have hnil : Settles a.rulebook.rules c [] d ↔ EndsAt a.rulebook.rules c d := by
        constructor
        · intro h
          cases h with
          | rest hends => exact hends
        · exact .rest
      rw [hnil, ← Rulebook.final_eq_iff hd]
      rfl
  | cons x w ih =>
      by_cases hstuck : (a.rulebook.freeRun c).final.isStuck = true
      · -- Stuck before the character: nothing is read, and nothing settles.
        have hrun : (a.runFrom c log).isStuck = true := hstuck
        rw [readWord_of_isStuck hrun]
        constructor
        · intro h
          rw [← h] at hd
          exact absurd hstuck (ne_true_of_eq_false hd)
        · intro h
          cases h with
          | read hends hstep _ =>
              rw [(Rulebook.final_eq_iff hstep.not_isStuck).2 hends, hstep.not_isStuck] at hstuck
              cases hstuck
      · rw [Bool.not_eq_true] at hstuck
        have hends := (Rulebook.final_eq_iff hstuck).1 rfl
        have hrun : (a.runFrom c log).isStuck = false := hstuck
        rcases readWord_cons hrun x w with ⟨log', hcons⟩
        rw [hcons]
        cases hnext : a.rulebook.next (a.rulebook.freeRun c).final (.character x) with
        | ok e =>
            have hafter : ((a.runFrom c log).afterCharacter x).1 = e := afterCharacter_of_ok hnext
            rw [hafter, Rulebook.settles_cons_iff hends (Rulebook.next_eq_ok_iff.1 hnext)]
            exact ih
        | error e =>
            have hafter : ((a.runFrom c log).afterCharacter x).1 =
                (a.rulebook.freeRun c).final.stuck := afterCharacter_of_error hnext
            rw [hafter]
            show ((a.runFrom (a.rulebook.freeRun c).final.stuck log').readWord w).configuration =
              d ↔ _
            rw [ih]
            constructor
            · intro h
              rw [h.eq_of_isStuck rfl] at hd
              cases hd
            · intro h
              -- There would be a rule for the character after all.
              cases h with
              | read hends' hstep _ =>
                  rw [Rulebook.endsAt_unique hends' hends, ← Rulebook.next_eq_ok_iff,
                    hnext] at hstep
                  cases hstep

end Run

/-- A word is accepted exactly if reading it settles in an accept state. -/
theorem accepts_iff {w : List Char} :
    a.accepts w = true ↔ ∃ d, Settles a.rulebook.rules a.start w d ∧ d.isIn a.accepting = true := by
  have hrun : a.accepts w = ((a.run .silent).readWord w).configuration.isIn
      ((a.run .silent).readWord w).automaton.accepting := rfl
  rw [hrun, Run.automaton_readWord]
  constructor
  · intro h
    exact ⟨_, (Run.configuration_readWord_iff (Configuration.not_isStuck_of_isIn h)).1 rfl, h⟩
  · rintro ⟨d, hsettles, hd⟩
    have hconfig : ((a.runFrom a.start .silent).readWord w).configuration = d :=
      (Run.configuration_readWord_iff (Configuration.not_isStuck_of_isIn hd)).2 hsettles
    rw [run, hconfig]
    exact hd

end Dpda

end WordAutomata
