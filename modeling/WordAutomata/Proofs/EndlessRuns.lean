import WordAutomata.Dpda.Run
import WordAutomata.Proofs.Records
import WordAutomata.Proofs.StackLocality

/-!
# Which Epsilon Runs are Endless

Following epsilon rules of a deterministic automaton gives up when a rule is to
be taken whose key is still remembered. That this never gives up too early, and
always gives up in the end, makes the detection exact.

It is never too early since a mark that is still remembered bears witness to a
moment: the stack had the height of the mark, the key of the mark was the state
and the top, and no rule has been taken below that height since. `Remembers` is
this invariant. Meeting the key again is then a repetition. Marks of moments that
the stack has fallen below since may be wrong, and are the ones forgotten.

It always gives up in the end since the loop ends at all, and ends in one of two
ways. If it does not give up, then no rule applies any more, and the run was not
endless.

## Main definitions

* `Pushdown.EndsAt`: Epsilon rules end in a configuration.
* `Dpda.Remembers`: What marks tell of the way to a configuration.
* `Dpda.Outcome`: What the end of a run tells of its start.

## Theorems

* `Dpda.Rulebook.step_iff`: There is one step at most, and looking up finds it.
* `Dpda.Remembers.step`: Taking a rule keeps what marks tell.
* `Dpda.Rulebook.follow_outcome`: Following epsilon rules tells how they end.
* `Dpda.Rulebook.freeMovesNoting_exact`: It ends where they end, and warns
  exactly if they do not.
-/

universe u

namespace WordAutomata

open Pushdown

variable {S : Type u} [Ordered S]

namespace Pushdown

/-- Epsilon rules lead from one configuration to the other, where none applies. -/
def EndsAt (rules : List (Rule S)) (c d : Configuration S) : Prop :=
  FreelyReaches rules c d ∧ ∀ e, ¬ Step rules .epsilon d e

theorem EndsAt.head {rules : List (Rule S)} {c d e : Configuration S}
    (hstep : Step rules .epsilon c d) (h : EndsAt rules d e) : EndsAt rules c e :=
  ⟨h.1.head hstep, h.2⟩

end Pushdown

namespace Dpda

variable {c d : Configuration S}

namespace Rulebook

variable {b : Rulebook S} {symbol : Symbol}

/-! ## Determinism -/

/-- A rule that applies is the one that is looked up. -/
theorem rule?_of_applies {r : Rule S} (hr : r ∈ b.rules) (happ : r.applies c symbol = true) :
    b.rule? c symbol = some r := by
  rcases Rule.applies_iff.1 happ with ⟨⟨hstate, htop⟩, rfl⟩
  unfold rule?
  rw [hstate, htop]
  exact Catalogue.lookUp?_of_mem b.tabulated hr

theorem step_iff :
    Step b.rules symbol c d ↔ ∃ r, b.rule? c symbol = some r ∧ d = r.follow c := by
  constructor
  · rintro ⟨r, hr, happ, rfl⟩
    exact ⟨r, rule?_of_applies hr happ, rfl⟩
  · rintro ⟨r, hr, rfl⟩
    have hmem := applies_of_rule? hr
    exact ⟨r, hmem.1, hmem.2, rfl⟩

theorem step_rightUnique : Relator.RightUnique (Step b.rules symbol) := by
  intro c d e hd he
  rcases step_iff.1 hd with ⟨r, hr, rfl⟩
  rcases step_iff.1 he with ⟨s, hs, rfl⟩
  rw [hr, Option.some.injEq] at hs
  rw [hs]

/-- There is one end at most. -/
theorem endsAt_unique {e : Configuration S} (hd : EndsAt b.rules c d) (he : EndsAt b.rules c e) :
    d = e := by
  -- One end is on the way to the other, but no rule leads on from an end.
  rcases Relation.ReflTransGen.total_of_right_unique step_rightUnique hd.1 he.1 with h | h
  · rcases Relation.ReflTransGen.cases_head h with heq | ⟨m, hm, _⟩
    · exact heq
    · exact absurd hm (hd.2 m)
  · rcases Relation.ReflTransGen.cases_head h with heq | ⟨m, hm, _⟩
    · exact heq.symm
    · exact absurd hm (he.2 m)

/-- What ends is not endless: the only run there is leads to the end. -/
theorem not_endless_of_endsAt (h : EndsAt b.rules c d) : ¬ Endless b.rules c := by
  rw [endless_iff_not_acc, not_not]
  rcases h with ⟨hreach, hend⟩
  -- Going back from the end, each configuration has one way on.
  induction hreach using Relation.ReflTransGen.head_induction_on with
  | refl => exact Acc.intro _ fun e he => absurd he (hend e)
  | head hstep _ ih =>
      apply Acc.intro
      intro e he
      rw [step_rightUnique he hstep]
      exact ih

end Rulebook

/-! ## What marks tell -/

/-- What marks tell of the way to a configuration. They are sorted by height, the
    highest first. A mark that is not higher than the stack is of a moment since
    which no rule has been taken below its height. -/
structure Remembers (rules : List (Rule S)) (c : Configuration S) (marks : List (Mark S)) :
    Prop where
  sorted : marks.Pairwise fun m m' => m'.height ≤ m.height
  held : ∀ m ∈ marks, m.height ≤ c.stack.height → ∃ d d', d.At m.key ∧
    d.stack.height = m.height ∧ Step rules .epsilon d d' ∧ Above rules m.height d' c

omit [Ordered S] in
/-- Forgetting the marks that are too high leaves those that are not. -/
theorem mem_recent {marks : List (Mark S)} {height : Nat} {m : Mark S}
    (hsorted : marks.Pairwise fun m m' => m'.height ≤ m.height) :
    m ∈ recent marks height ↔ m ∈ marks ∧ m.height ≤ height := by
  unfold recent
  induction marks with
  | nil => simp only [List.dropWhile_nil, List.not_mem_nil, false_and]
  | cons m' marks ih =>
      rw [List.pairwise_cons] at hsorted
      rw [List.dropWhile_cons]
      by_cases hm' : height < m'.height
      · rw [if_pos (by simpa using hm'), ih hsorted.2, List.mem_cons]
        constructor
        · exact fun h => ⟨.inr h.1, h.2⟩
        · rintro ⟨rfl | h, hle⟩
          · omega
          · exact ⟨h, hle⟩
      · -- All marks that follow are lower still.
        rw [if_neg (by simpa using hm')]
        refine ⟨fun h => ⟨h, ?_⟩, And.left⟩
        rcases List.mem_cons.1 h with rfl | h
        · omega
        · have hle := hsorted.1 m h
          omega

theorem remembers_nil (rules : List (Rule S)) : Remembers rules c [] where
  sorted := List.Pairwise.nil
  held _ hm := absurd hm List.not_mem_nil

/-- Taking a rule keeps what marks tell, with the rule marked and the marks
    forgotten that are higher than the stack. -/
theorem Remembers.step {rules : List (Rule S)} {marks : List (Mark S)} {r : Rule S}
    (h : Remembers rules c marks) (hr : r ∈ rules) (happ : r.applies c .epsilon = true) :
    Remembers rules (r.follow c) (⟨c.stack.height, key r⟩ :: recent marks c.stack.height) where
  sorted := by
    rw [List.pairwise_cons]
    refine ⟨fun m hm => ((mem_recent h.sorted).1 hm).2, ?_⟩
    exact h.sorted.sublist (List.dropWhile_sublist _)
  held m hm hle := by
    have hstep : Step rules .epsilon c (r.follow c) := ⟨r, hr, happ, rfl⟩
    rcases List.mem_cons.1 hm with rfl | hm
    · exact ⟨c, r.follow c, (Rule.applies_iff.1 happ).1, rfl, hstep, .refl⟩
    · -- An older mark is not higher than the stack was, so it allows the rule.
      rcases (mem_recent h.sorted).1 hm with ⟨hmem, hlow⟩
      rcases h.held m hmem hlow with ⟨d, d', hat, hheight, hd', habove⟩
      exact ⟨d, d', hat, hheight, hd', habove.tail ⟨hlow, hstep⟩⟩

/-- Meeting a remembered key again is a repetition. -/
theorem Remembers.endless {rules : List (Rule S)} {marks : List (Mark S)} {m : Mark S}
    (h : Remembers rules c marks) (hm : m ∈ recent marks c.stack.height) (hc : c.At m.key) :
    Endless rules c := by
  rcases (mem_recent h.sorted).1 hm with ⟨hmem, hle⟩
  rcases h.held m hmem hle with ⟨d, d', hat, hheight, hd', habove⟩
  rw [← hheight] at habove hle
  rcases repeats_of_above hat hc hd' habove hle with ⟨pile, hpile, _⟩
  exact hpile.endless hc

/-! ## Following epsilon rules -/

/-- What the end of a run tells of its start: either the rules ended there, or
    they can be taken forever. -/
inductive Outcome (rules : List (Rule S)) (c : Configuration S) (run : FreeRun S) : Prop
  | ended (hcycle : run.cycle? = none) (hends : EndsAt rules c run.final)
  | endless (r : Rule S) (hr : r ∈ rules) (hcycle : run.cycle? = some r)
      (hfinal : ∃ d, FreelyReaches rules c d ∧ run.final = d.stuck) (hendless : Endless rules c)

theorem Outcome.head {rules : List (Rule S)} {run : FreeRun S}
    (hstep : Step rules .epsilon c d) (h : Outcome rules d run) : Outcome rules c run := by
  cases h with
  | ended hcycle hends => exact .ended hcycle (hends.head hstep)
  | endless r hr hcycle hfinal hendless =>
      rcases hfinal with ⟨e, he, hstuck⟩
      exact .endless r hr hcycle ⟨e, he.head hstep, hstuck⟩ (hendless.head hstep)

namespace Rulebook

/-- Following epsilon rules tells how they end. -/
theorem follow_outcome {b : Rulebook S} {marks : List (Mark S)} {moves : Nat}
    (h : Remembers b.rules c marks) : Outcome b.rules c (b.follow c marks moves) := by
  fun_induction follow b c marks moves with
  | case1 c marks moves hnone =>
      refine .ended rfl ⟨.refl, ?_⟩
      intro e he
      rcases step_iff.1 he with ⟨r, hr, _⟩
      rw [hnone] at hr
      cases hr
  | case2 c marks moves r hr remembered hnew ih =>
      rcases applies_of_rule? hr with ⟨hmem, happ⟩
      exact (ih (h.step hmem happ)).head ⟨r, hmem, happ, rfl⟩
  | case3 c marks moves r hr remembered hnew =>
      rcases applies_of_rule? hr with ⟨hmem, happ⟩
      -- Some mark that is remembered has the key of the rule.
      have hold : ∃ m ∈ remembered, m.key = key r := by
        simpa using hnew
      rcases hold with ⟨m, hm, hkey⟩
      refine .endless r hmem rfl ⟨c, .refl, rfl⟩ (h.endless hm ?_)
      rw [hkey]
      exact (Rule.applies_iff.1 happ).1

theorem freeRun_outcome (b : Rulebook S) (c : Configuration S) :
    Outcome b.rules c (b.freeRun c) :=
  follow_outcome (remembers_nil b.rules)

variable [Describe S]

/-- Tracing a run leaves no warning, so the only one there can be is that of the
    cycle. -/
theorem recordsOf_warn_noteFreeRun (b : Rulebook S) (c : Configuration S) (run : FreeRun S)
    (log : Log) : (noteFreeRun b c run log).recordsOf .warn = log.recordsOf .warn ++
      match run.cycle? with
      | none => []
      | some r => if log.keeps .warn then [⟨.warn, cycleText r⟩] else [] := by
  unfold noteFreeRun
  extract_lets traced
  have htraced : traced.recordsOf .warn = log.recordsOf .warn ∧
      traced.keeps .warn = log.keeps .warn := by
    unfold traced
    by_cases h : log.keeps .trace
    · rw [if_pos h]
      exact ⟨Log.recordsOf_noteEach_of_ne (by decide), Log.keeps_noteEach⟩
    · rw [if_neg h]
      exact ⟨rfl, rfl⟩
  cases run.cycle? with
  | none => rw [htraced.1, List.append_nil]
  | some r => rw [Log.recordsOf_note, htraced.1, htraced.2]

/-- Following epsilon rules is exact. Either they end or they are endless. If they
    end, it leads to their end without a warning. If they are endless, it gets stuck
    somewhere on the way and leaves one warning. -/
theorem freeMovesNoting_exact (b : Rulebook S) (c : Configuration S) (log : Log) :
    ((∃ d, EndsAt b.rules c d) ↔ ¬ Endless b.rules c) ∧
    (∀ d, EndsAt b.rules c d → (b.freeMovesNoting c log).1 = d ∧
      (b.freeMovesNoting c log).2.recordsOf .warn = log.recordsOf .warn) ∧
    (Endless b.rules c → (b.freeMovesNoting c log).1.isStuck = true ∧
      (∃ d, FreelyReaches b.rules c d ∧ (b.freeMovesNoting c log).1 = d.stuck) ∧
      ∃ r ∈ b.rules, (b.freeMovesNoting c log).2.recordsOf .warn = log.recordsOf .warn ++
        if log.keeps .warn then [⟨.warn, cycleText r⟩] else []) := by
  have hrecords := recordsOf_warn_noteFreeRun b c (b.freeRun c) log
  unfold freeMovesNoting
  cases b.freeRun_outcome c with
  | ended hcycle hends =>
      have hnot := not_endless_of_endsAt hends
      rw [hcycle, List.append_nil] at hrecords
      refine ⟨⟨fun _ => hnot, fun _ => ⟨_, hends⟩⟩, fun d hd => ?_, fun h => absurd h hnot⟩
      exact ⟨endsAt_unique hends hd, hrecords⟩
  | endless r hr hcycle hfinal hendless =>
      rw [hcycle] at hrecords
      have hnot : ∀ d, ¬ EndsAt b.rules c d :=
        fun d hd => not_endless_of_endsAt hd hendless
      refine ⟨⟨fun h => absurd h.choose_spec (hnot _), fun h => absurd hendless h⟩,
        fun d hd => absurd hd (hnot d), fun _ => ⟨?_, hfinal, r, hr, hrecords⟩⟩
      rcases hfinal with ⟨d, _, hstuck⟩
      simp only [hstuck, Configuration.isStuck, Configuration.stuck, Option.isNone_none]

end Rulebook

end Dpda

end WordAutomata
