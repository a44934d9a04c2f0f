import WordAutomata.Proofs.DpdaRuns
import Mathlib

/-!
# What Breaks a Pushdown Run

A deterministic run that is not stuck has settled. A run that is stuck got stuck at one
moment, and there are three ways for that: it had no state to begin with, epsilon
rules go on forever, or they end where there is no rule for the character that
comes next, be it that the stack is empty. `Breaks` lists them, for the first
character and then, after it, for the rest of the word. It does not mention stuck
configurations but for the start, and it holds exactly if `Settles` leads to no state.

Reading has three places at which it stops early: a character that has no rule, a run
that is stuck when a character is to be read, and one that is stuck in front of a
word. None of them can be told from reading on, because a stuck run changes no
more. So a word may be cut anywhere and read in parts, down to its characters.

## Main definitions

* `Pushdown.Breaks`: What is missing when a word cannot be read.

## Theorems

* `Dpda.Rulebook.breaks_iff`: A word breaks, or else it settles.
* `Dpda.Run.readWord_append`: A word can be read in parts.
* `Dpda.Run.not_step_readWord`: A run is at rest after every word.
* `Dpda.readWord_rests`: Where a run is after a word, and when it is stuck.
-/

universe u

namespace WordAutomata

open Pushdown

variable {S : Type u} [Ordered S]

namespace Pushdown

variable {rules : List (Rule S)} {c d e : Configuration S} {symbol : Symbol} {w : List Char}

/-- A word cannot be read from a configuration: there is no state, or epsilon rules never
    end, or they end where no rule reads the first character, or one does and the
    rest cannot be read from where it leads. -/
inductive Breaks (rules : List (Rule S)) : Configuration S → List Char → Prop
  | stuck {c : Configuration S} {word : List Char} : c.isStuck = true → Breaks rules c word
  | endless {c : Configuration S} {word : List Char} : Endless rules c → Breaks rules c word
  | missing {c d : Configuration S} {a : Char} {word : List Char} :
      EndsAt rules c d → (∀ e, ¬ Step rules (.character a) d e) → Breaks rules c (a :: word)
  | later {c d e : Configuration S} {a : Char} {word : List Char} :
      EndsAt rules c d → Step rules (.character a) d e → Breaks rules e word →
        Breaks rules c (a :: word)

/-- On an empty stack no rule applies. -/
theorem not_step_of_isEmpty (hempty : d.stack.symbols = []) : ¬ Step rules symbol d e :=
  fun h => h.symbols_ne_nil hempty

/-- A rule leads to a state. -/
theorem Step.target_not_isStuck (h : Step rules symbol c d) : d.isStuck = false := by
  rcases h with ⟨r, _, _, rfl⟩
  rfl

theorem EndsAt.not_isStuck (h : EndsAt rules c d) (hc : c.isStuck = false) :
    d.isStuck = false := by
  rcases Relation.ReflTransGen.cases_tail h.1 with rfl | ⟨m, _, hm⟩
  · exact hc
  · exact hm.target_not_isStuck

/-- Where a word settles no epsilon rule applies. -/
theorem Settles.not_step (h : Settles rules c w d) : ∀ e, ¬ Step rules .epsilon d e := by
  induction h with
  | rest hends => exact hends.2
  | read _ _ _ ih => exact ih

end Pushdown

namespace Dpda

namespace Rulebook

variable {b : Rulebook S} {c d : Configuration S} {w : List Char}

/-- Epsilon rules go on forever or come to an end. -/
theorem endless_or_endsAt (b : Rulebook S) (c : Configuration S) :
    Endless b.rules c ∨ ∃ d, EndsAt b.rules c d := by
  cases b.freeRun_outcome c with
  | ended _ hends => exact .inr ⟨_, hends⟩
  | endless _ _ _ _ hendless => exact .inl hendless

/-- A word does not settle in a state if it breaks. -/
theorem not_settles_of_breaks (h : Breaks b.rules c w) (hsettles : Settles b.rules c w d) :
    d.isStuck = true := by
  induction h with
  | stuck hstuck =>
      rw [hsettles.eq_of_isStuck hstuck]
      exact hstuck
  | endless hendless =>
      cases hsettles with
      | rest hends => exact absurd hendless (not_endless_of_endsAt hends)
      | read hends _ _ => exact absurd hendless (not_endless_of_endsAt hends)
  | missing hends hmissing =>
      cases hsettles with
      | read hends' hstep _ =>
          rw [endsAt_unique hends' hends] at hstep
          exact absurd hstep (hmissing _)
  | later hends hstep _ ih => exact ih ((settles_cons_iff hends hstep).1 hsettles)

/-- A word that does not break settles in a state. -/
theorem breaks_or_settles (b : Rulebook S) (c : Configuration S) (w : List Char) :
    Breaks b.rules c w ∨ ∃ d, d.isStuck = false ∧ Settles b.rules c w d := by
  induction w generalizing c with
  | nil =>
      by_cases hc : c.isStuck = true
      · exact .inl (.stuck hc)
      · rw [Bool.not_eq_true] at hc
        rcases b.endless_or_endsAt c with hendless | ⟨d, hends⟩
        · exact .inl (.endless hendless)
        · exact .inr ⟨d, hends.not_isStuck hc, .rest hends⟩
  | cons x w ih =>
      rcases b.endless_or_endsAt c with hendless | ⟨d, hends⟩
      · exact .inl (.endless hendless)
      · by_cases hstep : ∃ e, Step b.rules (.character x) d e
        · -- The rule for the character leads on, and the rest breaks or settles.
          rcases hstep with ⟨e, hstep⟩
          rcases ih e with hbreaks | ⟨f, hf, hsettles⟩
          · exact .inl (.later hends hstep hbreaks)
          · exact .inr ⟨f, hf, .read hends hstep hsettles⟩
        · exact .inl (.missing hends fun e he => hstep ⟨e, he⟩)

/-- A word breaks exactly if it settles in no state. -/
theorem breaks_iff :
    Breaks b.rules c w ↔ ¬ ∃ d, d.isStuck = false ∧ Settles b.rules c w d := by
  constructor
  · rintro hbreaks ⟨d, hd, hsettles⟩
    rw [not_settles_of_breaks hbreaks hsettles] at hd
    cases hd
  · exact (b.breaks_or_settles c w).resolve_right

end Rulebook

variable [Describe S] {a : Dpda S} {log : Log}

namespace Run

variable {c : Configuration S}

theorem read_of_isStuck {run : Run S} (h : run.isStuck = true) (x : Char) : run.read x = run := by
  rw [read, if_pos h]

/-- Reading a word is reading its characters, one after the other. -/
theorem readWord_eq_foldl (run : Run S) (w : List Char) : run.readWord w = w.foldl read run := by
  induction w generalizing run with
  | nil => rfl
  | cons x w ih =>
      rw [readWord, List.foldl_cons]
      by_cases h : run.isStuck = true
      · -- A stuck run would have read on without a change.
        rw [if_pos h, read_of_isStuck h, ← ih, readWord_of_isStuck h]
      · rw [if_neg h, ih]

/-- A word can be read in parts. -/
theorem readWord_append (run : Run S) (v w : List Char) :
    run.readWord (v ++ w) = (run.readWord v).readWord w := by
  rw [readWord_eq_foldl, readWord_eq_foldl, readWord_eq_foldl, List.foldl_append]

omit [Describe S] in
/-- A stuck run does not accept. -/
theorem isAccepting_of_isStuck {run : Run S} (h : run.isStuck = true) :
    run.isAccepting = false := by
  rw [Bool.eq_false_iff]
  intro haccepting
  have hnot : run.isStuck = false := Configuration.not_isStuck_of_isIn haccepting
  rw [h] at hnot
  cases hnot

/-- A run is stuck if the word breaks. -/
theorem isStuck_readWord_iff {w : List Char} :
    ((a.runFrom c log).readWord w).isStuck = true ↔ Breaks a.rulebook.rules c w := by
  rw [Rulebook.breaks_iff]
  constructor
  · rintro hstuck ⟨d, hd, hsettles⟩
    rw [isStuck, (configuration_readWord_iff hd).2 hsettles, hd] at hstuck
    cases hstuck
  · intro hnone
    by_contra hstuck
    rw [Bool.not_eq_true] at hstuck
    exact hnone ⟨_, hstuck, (configuration_readWord_iff hstuck).1 rfl⟩

/-- Nothing can be read on an empty stack. -/
theorem isStuck_read_of_isEmpty {run : Run S} (hempty : run.configuration.stack.symbols = [])
    (x : Char) : (run.read x).isStuck = true := by
  by_cases hstuck : run.isStuck = true
  · rw [read_of_isStuck hstuck]
    exact hstuck
  · rw [Bool.not_eq_true] at hstuck
    cases hnext : run.automaton.rulebook.next run.configuration (.character x) with
    | ok e => exact absurd (Rulebook.next_eq_ok_iff.1 hnext) (not_step_of_isEmpty hempty)
    | error e =>
        -- Without a rule the run goes on from a stuck configuration.
        rcases readWord_cons hstuck x [] with ⟨log, hcons⟩
        rw [afterCharacter_of_error hnext, readWord_eq_foldl] at hcons
        have hread : run.read x = (run.automaton.runFrom run.configuration.stuck log).readWord [] :=
          hcons
        rw [hread, isStuck_readWord_iff]
        exact .stuck rfl

/-- After every word no epsilon rule applies. -/
theorem not_step_readWord {w : List Char} (e : Configuration S) :
    ¬ Step a.rulebook.rules .epsilon ((a.runFrom c log).readWord w).configuration e := by
  intro hstep
  -- If a rule applies the run is not stuck, so it is where the word settles.
  have hsettles := (configuration_readWord_iff hstep.not_isStuck).1 rfl
  exact hsettles.not_step e hstep

end Run

/-- A run and what rules do. A run that is not stuck is where the word settles: epsilon
    rules are followed to their end, the one rule for a character is taken, and so on.
    It is stuck exactly if the word breaks, which is in all other cases. A stuck run
    does not accept, and reading changes nothing about it. With an empty stack, one more
    character leaves the run stuck. A word may be read in parts. A word is accepted
    exactly if it settles in an accept state. No epsilon rule applies to what a run
    comes to. -/
theorem readWord_rests (a : Dpda S) (log : Log) (w : List Char) :
    (∀ d, d.isStuck = false → (((a.run log).readWord w).configuration = d ↔
      Settles a.rulebook.rules a.start w d)) ∧
    (((a.run log).readWord w).isStuck = true ↔ Breaks a.rulebook.rules a.start w) ∧
    (Breaks a.rulebook.rules a.start w ↔
      ¬ ∃ d, d.isStuck = false ∧ Settles a.rulebook.rules a.start w d) ∧
    (((a.run log).readWord w).isStuck = true →
      ((a.run log).readWord w).isAccepting = false ∧
      (∀ x, ((a.run log).readWord w).read x = (a.run log).readWord w) ∧
      ∀ v, ((a.run log).readWord w).readWord v = (a.run log).readWord w) ∧
    (((a.run log).readWord w).configuration.stack.symbols = [] →
      ∀ x, (((a.run log).readWord w).read x).isStuck = true) ∧
    (∀ v, ((a.run log).readWord w).readWord v = (a.run log).readWord (w ++ v)) ∧
    (a.accepts w = true ↔ ∃ d, d.isStuck = false ∧ Settles a.rulebook.rules a.start w d ∧
      ∃ s ∈ a.accepting, d.state? = some s) ∧
    (∀ e, ¬ Step a.rulebook.rules .epsilon ((a.run log).readWord w).configuration e) := by
  refine ⟨fun d hd => Run.configuration_readWord_iff hd, Run.isStuck_readWord_iff,
    Rulebook.breaks_iff, fun hstuck => ⟨Run.isAccepting_of_isStuck hstuck,
      fun x => Run.read_of_isStuck hstuck x, fun v => Run.readWord_of_isStuck hstuck v⟩,
    fun hempty x => Run.isStuck_read_of_isEmpty hempty x,
    fun v => (Run.readWord_append _ w v).symm, ?_, fun e => Run.not_step_readWord e⟩
  rw [accepts_iff]
  constructor
  · rintro ⟨d, hsettles, hd⟩
    exact ⟨d, Configuration.not_isStuck_of_isIn hd, hsettles, Configuration.isIn_iff.1 hd⟩
  · rintro ⟨d, _, hsettles, hd⟩
    exact ⟨d, hsettles, Configuration.isIn_iff.2 hd⟩

/-- Rules to put a mark on the stack and to take one off. The character `c` leads to an
    epsilon rule that goes on forever, and `d` to a state that has no rules. -/
def tallyRules : List (Rule Nat) :=
  [⟨1, .character 'a', 1, '$', ['$', '$']⟩, ⟨1, .character 'b', 1, '$', []⟩,
    ⟨1, .character 'c', 2, '$', ['$']⟩, ⟨2, .epsilon, 2, '$', ['$']⟩,
    ⟨1, .character 'd', 3, '$', ['$']⟩]

theorem isSome_ofRules_tally : (Rulebook.ofRules tallyRules).toOption.isSome = true := by cbv

/-- The automaton with these rules. -/
def tally : Dpda Nat where
  start := .of 1 (.ofList ['$'])
  accepting := .singleton 1
  rulebook := (Rulebook.ofRules tallyRules).toOption.get isSome_ofRules_tally

/-- Marks are taken off until the stack is empty, which is accepted, and then nothing can be
    read. What ends in another state is not stuck and not accepted either. -/
theorem readWord_rests_tally :
    ((tally.run .silent).readWord ['a', 'b', 'b']).configuration.stack.symbols = [] ∧
    (((tally.run .silent).readWord ['a', 'b', 'b']).read 'b').isStuck = true ∧
    (∃ d, d.isStuck = false ∧ Settles tally.rulebook.rules tally.start ['a', 'b', 'b'] d ∧
      ∃ s ∈ tally.accepting, d.state? = some s) ∧
    ((tally.run .silent).readWord ['d']).isStuck = false ∧
    (¬ ∃ d, d.isStuck = false ∧ Settles tally.rulebook.rules tally.start ['d'] d ∧
      ∃ s ∈ tally.accepting, d.state? = some s) ∧
    ((tally.run .silent).readWord ['c']).isStuck = true ∧
    Breaks tally.rulebook.rules tally.start ['c'] ∧
    (tally.run .silent).readWord ['c', 'a', 'b'] = (tally.run .silent).readWord ['c'] := by
  rcases readWord_rests tally .silent ['a', 'b', 'b'] with
    ⟨_, _, _, _, hempty, _, haccepts, _⟩
  rcases readWord_rests tally .silent ['d'] with ⟨_, _, _, _, _, _, haccepts', _⟩
  rcases readWord_rests tally .silent ['c'] with ⟨_, hbreaks, _, hstuck, _, happend, _, _⟩
  have hstack :
      ((tally.run .silent).readWord ['a', 'b', 'b']).configuration.stack.symbols = [] := by cbv
  have haccepted : tally.accepts ['a', 'b', 'b'] = true := by cbv
  have hmoves : ((tally.run .silent).readWord ['d']).isStuck = false := by cbv
  have hrejected : tally.accepts ['d'] = false := by cbv
  have hendless : ((tally.run .silent).readWord ['c']).isStuck = true := by cbv
  refine ⟨hstack, hempty hstack 'b', haccepts.1 haccepted, hmoves, ?_, hendless,
    hbreaks.1 hendless, ?_⟩
  · rw [← haccepts', hrejected]
    exact Bool.false_ne_true
  · rw [← List.singleton_append, ← happend]
    exact (hstuck hendless).2.2 ['a', 'b']

end Dpda

end WordAutomata
