import WordAutomata.Proofs.DfaRuns
import WordAutomata.Proofs.Paths
import WordAutomata.Proofs.PushdownAgreement
import WordAutomata.Proofs.PushdownCourses
import WordAutomata.Proofs.RestingRuns

/-!
# Finite Automata with an Idle Stack

A finite automaton becomes a pushdown automaton if each of its rules is made to want
one and the same character on top of the stack, and to leave it there. The stack
then never changes, and what is left of the pushdown automaton is the finite one.

The two kinds of automata look for their rules in different ways, close their sets
by different walks, and judge endless epsilon rules differently, so none of this
holds by definition. It is carried by one fact about rules (`reaches_overStack_iff`):
with the character as the only one on the stack, the pushdown rules reach what paths
of the finite rules reach, with that character on the stack again.

A set that is reached is then no larger than a set of states, so that all closures
are finite and none is truncated, whatever cycles the epsilon rules have. And of
deterministic rules without epsilons no epsilon run is left at all. A run settles
where it stands, and gets stuck exactly where the other one reports an error.

## Main definitions

* `Finite.Rule.overStack`: A rule that leaves the stack as it is.
* `Nfa.toNpda`: The automaton with these rules.

## Theorems

* `Pushdown.reaches_overStack_iff`: What the rules reach are the ends of paths.
* `Nfa.mem_configurations_toNpda`: The configurations of a run are its states.
* `Pushdown.settles_overStack_iff`: Without epsilon rules, runs settle at the ends
  of paths.
* `idle_stack_simulates`: Both kinds of automata do what the finite ones do.
-/

universe u

namespace WordAutomata

open Pushdown

variable {S : Type u}

/-- The rule that wants a character on top of the stack and leaves it there. -/
def Finite.Rule.overStack (z : Char) (r : Finite.Rule S) : Pushdown.Rule S :=
  ⟨r.source, r.symbol, r.target, z, [z]⟩

variable [Ordered S]

namespace Pushdown

variable {rules : List (Finite.Rule S)} {z : Char} {s : S} {d : Configuration S} {w : List Char}

theorem step_overStack_iff {symbol : Symbol} :
    Step (rules.map (Finite.Rule.overStack z)) symbol (.of s (.ofList [z])) d ↔
      ∃ t, ⟨s, symbol, t⟩ ∈ rules ∧ d = .of t (.ofList [z]) := by
  show Step (rules.map (Finite.Rule.overStack z)) symbol (configured (s, [z])) d ↔ _
  rw [step_configured_iff]
  constructor
  · rintro ⟨_, hr, hsymbol, _, ⟨below, hp, rfl⟩, rfl⟩
    rcases List.mem_map.1 hr with ⟨⟨source, x, t⟩, hr', rfl⟩
    obtain rfl : x = symbol := hsymbol
    rcases Prod.mk.inj hp with ⟨rfl, hstack⟩
    -- Nothing lies below the only character.
    obtain rfl : [] = below := (List.cons.inj hstack).2
    exact ⟨t, hr', rfl⟩
  · rintro ⟨t, hr, rfl⟩
    exact ⟨_, List.mem_map.2 ⟨_, hr, rfl⟩, rfl, _, ⟨[], rfl, rfl⟩, rfl⟩

/-- Rules that leave the stack as it is reach the ends of paths. -/
theorem reaches_overStack_iff :
    Reaches (rules.map (Finite.Rule.overStack z)) (.of s (.ofList [z])) w d ↔
      ∃ t, d = .of t (.ofList [z]) ∧ Finite.Path rules s w t := by
  constructor
  · intro h
    -- Each step leads to a configuration of the same kind, so the induction is on all of them.
    generalize hc : Configuration.of s (.ofList [z]) = c at h
    induction h generalizing s with
    | refl c => exact ⟨s, hc.symm, .refl s⟩
    | free hstep _ ih =>
        rw [← hc] at hstep
        rcases step_overStack_iff.1 hstep with ⟨t, hr, rfl⟩
        rcases ih rfl with ⟨t', hd, hpath⟩
        exact ⟨t', hd, .free hr hpath⟩
    | read hstep _ ih =>
        rw [← hc] at hstep
        rcases step_overStack_iff.1 hstep with ⟨t, hr, rfl⟩
        rcases ih rfl with ⟨t', hd, hpath⟩
        exact ⟨t', hd, .read hr hpath⟩
  · rintro ⟨t, rfl, hpath⟩
    induction hpath with
    | refl s => exact .refl _
    | free hr _ ih => exact .free (step_overStack_iff.2 ⟨_, hr, rfl⟩) ih
    | read hr _ ih => exact .read (step_overStack_iff.2 ⟨_, hr, rfl⟩) ih

/-- Without epsilon rules each configuration with only that character is at rest. -/
theorem endsAt_overStack_iff (hfree : ∀ r ∈ rules, r.symbol ≠ .epsilon) :
    EndsAt (rules.map (Finite.Rule.overStack z)) (.of s (.ofList [z])) d ↔
      d = .of s (.ofList [z]) := by
  have hrests : ∀ e, ¬ Step (rules.map (Finite.Rule.overStack z)) .epsilon
      (.of s (.ofList [z])) e := by
    intro e hstep
    rcases step_overStack_iff.1 hstep with ⟨t, hr, _⟩
    exact hfree _ hr rfl
  constructor
  · rintro ⟨hreach, _⟩
    rcases Relation.ReflTransGen.cases_head hreach with rfl | ⟨e, hstep, _⟩
    · rfl
    · exact absurd hstep (hrests e)
  · rintro rfl
    exact ⟨.refl, hrests⟩

/-- Without epsilon rules a word settles at the ends of paths. -/
theorem settles_overStack_iff (hfree : ∀ r ∈ rules, r.symbol ≠ .epsilon) :
    Settles (rules.map (Finite.Rule.overStack z)) (.of s (.ofList [z])) w d ↔
      ∃ t, d = .of t (.ofList [z]) ∧ Finite.Path rules s w t := by
  constructor
  · intro h
    generalize hc : Configuration.of s (.ofList [z]) = c at h
    induction h generalizing s with
    | rest hends =>
        rw [← hc, endsAt_overStack_iff hfree] at hends
        exact ⟨s, hends, .refl s⟩
    | read hends hstep _ ih =>
        rw [← hc, endsAt_overStack_iff hfree] at hends
        rw [hends] at hstep
        rcases step_overStack_iff.1 hstep with ⟨t, hr, rfl⟩
        rcases ih rfl with ⟨t', hd, hpath⟩
        exact ⟨t', hd, .read hr hpath⟩
  · rintro ⟨t, rfl, hpath⟩
    have hrests : ∀ s, EndsAt (rules.map (Finite.Rule.overStack z)) (.of s (.ofList [z]))
        (.of s (.ofList [z])) := fun s => (endsAt_overStack_iff hfree).2 rfl
    induction hpath with
    | refl s => exact .rest (hrests s)
    | free hr _ _ => exact absurd rfl (hfree _ hr)
    | read hr _ ih => exact .read (hrests _) (step_overStack_iff.2 ⟨_, hr, rfl⟩) ih

end Pushdown

/-! ## Nondeterministic automata -/

namespace Nfa

/-- The automaton with a single character on its stack, which no rule changes. -/
def toNpda (a : Nfa S) (z : Char) : Npda S :=
  ⟨a.start, z, a.accepting, .ofRules (a.rulebook.rules.map (Finite.Rule.overStack z))⟩

variable {a : Nfa S} {z : Char} {d : Configuration S} {w : List Char}

theorem reaches_toNpda_iff :
    (∃ c ∈ SortedSet.singleton (a.toNpda z).startConfiguration,
      Reaches (a.toNpda z).rulebook.rules c w d) ↔
      ∃ q ∈ w.foldl a.rulebook.next a.startSet, d = .of q (.ofList [z]) := by
  have hstart : (a.toNpda z).startConfiguration = .of a.start (.ofList [z]) := rfl
  have hrules : (a.toNpda z).rulebook.rules =
      a.rulebook.rules.map (Finite.Rule.overStack z) := rfl
  simp only [SortedSet.mem_singleton, exists_eq_left, hstart, hrules, reaches_overStack_iff,
    startSet, Rulebook.mem_foldl_next]
  constructor
  · rintro ⟨q, hd, hpath⟩
    exact ⟨q, hpath, hd⟩
  · rintro ⟨q, hpath, hd⟩
    exact ⟨q, hd, hpath⟩

/-- All closures are finite, since no more is reached than there are states. -/
theorem finite_toClose_toNpda (a : Nfa S) (z : Char) (w : List Char) :
    ∀ cs ∈ (a.toNpda z).rulebook.toClose (.singleton (a.toNpda z).startConfiguration) w,
      (freeClosure (a.toNpda z).rulebook.rules cs).Finite := by
  rw [Npda.Rulebook.finite_toClose_iff]
  intro u _
  simp only [reaches_toNpda_iff]
  -- Every configuration that is reached belongs to a state that the other run holds.
  have himage := (List.finite_toSet (u.foldl a.rulebook.next a.startSet).toList).image
    fun q => Configuration.of q (.ofList [z])
  apply himage.subset
  rintro d ⟨q, hq, rfl⟩
  exact ⟨q, hq, rfl⟩

variable [Describe S]

/-- A run holds the states of the other run, each with the character on its stack. -/
theorem mem_configurations_toNpda (log log' : Log) :
    d ∈ (((a.toNpda z).run log).readWord w).configurations ↔
      ∃ q ∈ ((a.run log').readWord w).states, d = .of q (.ofList [z]) := by
  rw [Npda.configurations_run, Npda.Rulebook.mem_foldl_advance_iff (finite_toClose_toNpda a z w),
    reaches_toNpda_iff, states_run]

theorem accepts_toNpda (a : Nfa S) (z : Char) (w : List Char) :
    (a.toNpda z).accepts w = a.accepts w := by
  have hstates : ((a.run .silent).readWord w).states = w.foldl a.rulebook.next a.startSet :=
    states_run
  rw [Bool.eq_iff_iff, Npda.accepts_iff, ← Npda.configurations_run (a.toNpda z) .silent, accepts_eq,
    isAccepting, SortedSet.intersects_iff, ← hstates]
  simp only [mem_configurations_toNpda .silent .silent]
  constructor
  · rintro ⟨_, ⟨q, hq, rfl⟩, haccepting⟩
    exact ⟨q, hq, Npda.isIn_of_iff.1 haccepting⟩
  · rintro ⟨q, hq, haccepting⟩
    exact ⟨_, ⟨q, hq, rfl⟩, Npda.isIn_of_iff.2 haccepting⟩

end Nfa

/-! ## Deterministic automata -/

namespace Dfa

variable {a : Dfa S} {z : Char} {w : List Char}

/-- Rules without ambiguity stay so, since all want the same character. -/
theorem exists_ofRules_overStack (a : Dfa S) (z : Char) :
    ∃ b, Dpda.Rulebook.ofRules (a.rulebook.rules.map (Finite.Rule.overStack z)) = .ok b := by
  have hplace : ∀ r : Finite.Rule S, Catalogue.place Pushdown.Rule.source Dpda.column
      (r.overStack z) = (r.source, r.symbol, z) := fun _ => rfl
  have hdistinct : ((a.rulebook.rules.map (Finite.Rule.overStack z)).map
      (Catalogue.place Pushdown.Rule.source Dpda.column)).Nodup := by
    have hrules := a.rulebook.distinct
    unfold List.Nodup at hrules ⊢
    rw [List.pairwise_map] at hrules
    rw [List.map_map, List.pairwise_map]
    apply hrules.imp
    intro r r' hne heq
    -- Two rules in the same place would have had the same place without the character.
    simp only [Function.comp_apply, hplace, Prod.mk.injEq, and_true] at heq
    exact hne (Prod.ext heq.1 heq.2)
  rcases Catalogue.tabulate_of_nodup hdistinct with ⟨table, htable⟩
  unfold Dpda.Rulebook.ofRules
  split
  · exact ⟨_, rfl⟩
  · rename_i r herror
    rw [htable] at herror
    cases herror

variable [Describe S] {b : Dpda.Rulebook S}

/-- The run settles where the other run reads the word to its end. -/
theorem settles_iff_readWord
    (hb : Dpda.Rulebook.ofRules (a.rulebook.rules.map (Finite.Rule.overStack z)) = .ok b)
    (hfree : ∀ r ∈ a.rulebook.rules, r.symbol ≠ .epsilon) {d : Configuration S} (log : Log) :
    Settles b.rules (.of a.start (.ofList [z])) w d ↔ ((a.run log).readWord w).2 = none ∧
      d = .of ((a.run log).readWord w).1.state (.ofList [z]) := by
  rw [Dpda.Rulebook.rules_of_ofRules hb, settles_overStack_iff hfree]
  simp only [path_iff_readWord hfree log]
  constructor
  · rintro ⟨t, rfl, hnone, rfl⟩
    exact ⟨hnone, rfl⟩
  · rintro ⟨hnone, rfl⟩
    exact ⟨_, rfl, hnone, rfl⟩

/-- The run is stuck exactly if the other one reports an error. -/
theorem isStuck_onBottom_iff
    (hb : Dpda.Rulebook.ofRules (a.rulebook.rules.map (Finite.Rule.overStack z)) = .ok b)
    (hfree : ∀ r ∈ a.rulebook.rules, r.symbol ≠ .epsilon) {log : Log} :
    (((Dpda.onBottom a.start z a.accepting b).run log).readWord w).isStuck = true ↔
      ∃ e, a.accepts w = .error e := by
  have hstuck : (((Dpda.onBottom a.start z a.accepting b).run log).readWord w).isStuck = true ↔
      ¬ ∃ d, d.isStuck = false ∧ Settles b.rules (.of a.start (.ofList [z])) w d := by
    rw [← Dpda.Rulebook.breaks_iff]
    exact Dpda.Run.isStuck_readWord_iff
  -- Both fail where there is no path for the word.
  rw [hstuck, accepts_eq_error_iff hfree, Dpda.Rulebook.rules_of_ofRules hb]
  simp only [settles_overStack_iff hfree]
  apply not_congr
  constructor
  · rintro ⟨_, _, t, rfl, hpath⟩
    exact ⟨t, hpath⟩
  · rintro ⟨t, hpath⟩
    exact ⟨_, rfl, t, rfl, hpath⟩

theorem accepts_onBottom_iff
    (hb : Dpda.Rulebook.ofRules (a.rulebook.rules.map (Finite.Rule.overStack z)) = .ok b)
    (hfree : ∀ r ∈ a.rulebook.rules, r.symbol ≠ .epsilon) :
    (Dpda.onBottom a.start z a.accepting b).accepts w = true ↔ a.accepts w = .ok true := by
  have hrules : (Dpda.onBottom a.start z a.accepting b).rulebook.rules =
      a.rulebook.rules.map (Finite.Rule.overStack z) := Dpda.Rulebook.rules_of_ofRules hb
  have haccepts : a.accepts w = .ok true ↔
      ∃ t ∈ a.accepting, Finite.Path a.rulebook.rules a.start w t :=
    judge_eq_ok_true_iff hfree .silent
  rw [Dpda.accepts_iff, hrules, haccepts]
  have hstart : (Dpda.onBottom a.start z a.accepting b).start = .of a.start (.ofList [z]) := rfl
  simp only [hstart, settles_overStack_iff hfree]
  constructor
  · rintro ⟨_, ⟨t, rfl, hpath⟩, haccepting⟩
    exact ⟨t, Npda.isIn_of_iff.1 haccepting, hpath⟩
  · rintro ⟨t, haccepting, hpath⟩
    exact ⟨_, ⟨t, rfl, hpath⟩, Npda.isIn_of_iff.2 haccepting⟩

/-- A run that is not stuck is in the state of the other run. -/
theorem configuration_onBottom
    (hb : Dpda.Rulebook.ofRules (a.rulebook.rules.map (Finite.Rule.overStack z)) = .ok b)
    (hfree : ∀ r ∈ a.rulebook.rules, r.symbol ≠ .epsilon) {log log' : Log}
    (h : (((Dpda.onBottom a.start z a.accepting b).run log).readWord w).isStuck = false) :
    (((Dpda.onBottom a.start z a.accepting b).run log).readWord w).configuration =
      .of ((a.run log').readWord w).1.state (.ofList [z]) := by
  have hsettles := (Dpda.Run.configuration_readWord_iff h).1 rfl
  exact ((settles_iff_readWord hb hfree log').1 hsettles).2

end Dfa

/-! ## The simulation -/

variable [Describe S]

/-- Finite automata as pushdown automata whose stack stays what it is. After each word a
    nondeterministic one holds the states of the finite automaton, each with the
    character on the stack. Both accept the same words, and nothing is truncated. A
    deterministic one without epsilon rules accepts what the finite automaton accepts,
    and gets stuck where that reports an error. Until then it is in the same state. -/
theorem idle_stack_simulates (z : Char) :
    (∀ (a : Nfa S) (w : List Char),
      (∀ log log' d, d ∈ (((a.toNpda z).run log).readWord w).configurations ↔
        ∃ q ∈ ((a.run log').readWord w).states, d = .of q (.ofList [z])) ∧
      (a.toNpda z).accepts w = a.accepts w ∧
      ∀ log : Log, log.keeps .warn = true →
        (((a.toNpda z).run log).readWord w).log.recordsOf .warn = log.recordsOf .warn) ∧
    ∀ a : Dfa S, (∀ r ∈ a.rulebook.rules, r.symbol ≠ .epsilon) →
      ∃ b, Dpda.Rulebook.ofRules (a.rulebook.rules.map (Finite.Rule.overStack z)) = .ok b ∧
        ∀ w, ((Dpda.onBottom a.start z a.accepting b).accepts w = true ↔
            a.accepts w = .ok true) ∧
          ∀ log log',
            ((((Dpda.onBottom a.start z a.accepting b).run log).readWord w).isStuck = true ↔
              ∃ e, a.accepts w = .error e) ∧
            ((((Dpda.onBottom a.start z a.accepting b).run log).readWord w).isStuck = false →
              (((Dpda.onBottom a.start z a.accepting b).run log).readWord w).configuration =
                .of ((a.run log').readWord w).1.state (.ofList [z])) := by
  constructor
  · intro a w
    refine ⟨fun log log' d => Nfa.mem_configurations_toNpda log log', a.accepts_toNpda z w,
      fun log hkeeps => ?_⟩
    rw [Npda.recordsOf_warn_run _ hkeeps,
      Npda.Rulebook.warnings_eq_nil_iff.2 (a.finite_toClose_toNpda z w), List.append_nil]
  · intro a hfree
    rcases a.exists_ofRules_overStack z with ⟨b, hb⟩
    refine ⟨b, hb, fun w => ⟨Dfa.accepts_onBottom_iff hb hfree, fun log log' => ?_⟩⟩
    exact ⟨Dfa.isStuck_onBottom_iff hb hfree, Dfa.configuration_onBottom hb hfree⟩

/-- Two states between which epsilon rules go in a circle, and a way out of it. -/
def Nfa.revolving : Nfa Nat where
  start := 1
  accepting := .singleton 3
  rulebook := .ofRules [⟨1, .epsilon, 2⟩, ⟨2, .epsilon, 1⟩, ⟨2, .character 'a', 3⟩]

/-- Two characters in turns, with no rule for the one out of turn. -/
def Dfa.alternating : Dfa Nat where
  start := 1
  accepting := .singleton 1
  rulebook := .ofDistinct [⟨1, .character 'a', 2⟩, ⟨2, .character 'b', 1⟩] (by decide)

/-- The circle is not in the way of the character after it. Turns are accepted when they
    are over, and the run is stuck once a character is out of turn, but not before. -/
theorem idle_stack_simulates_turns :
    (Nfa.revolving.toNpda '$').accepts ['a'] = true ∧
    (∀ r ∈ Dfa.alternating.rulebook.rules, r.symbol ≠ .epsilon) ∧
    ∃ b, Dpda.Rulebook.ofRules
        (Dfa.alternating.rulebook.rules.map (Finite.Rule.overStack '$')) = .ok b ∧
      (Dpda.onBottom 1 '$' (.singleton 1) b).accepts ['a', 'b'] = true ∧
      (((Dpda.onBottom 1 '$' (.singleton 1) b).run .silent).readWord ['a', 'a', 'b']).isStuck =
        true ∧
      (((Dpda.onBottom 1 '$' (.singleton 1) b).run .silent).readWord ['a']).isStuck = false := by
  have hfree : ∀ r ∈ Dfa.alternating.rulebook.rules, r.symbol ≠ .epsilon := by
    rw [Dfa.alternating, Dfa.Rulebook.rules_ofDistinct]
    decide
  have hnpda := (idle_stack_simulates '$').1 Nfa.revolving ['a']
  rcases (idle_stack_simulates '$').2 Dfa.alternating hfree with ⟨b, hb, hword⟩
  have hstuck : ∃ e, Dfa.alternating.accepts ['a', 'a', 'b'] = .error e :=
    ⟨⟨2, .character 'a'⟩, by cbv⟩
  have hnot : Dfa.alternating.accepts ['a'] = .ok false := by cbv
  refine ⟨?_, hfree, b, hb, ?_, ?_, ?_⟩
  · rw [hnpda.2.1]
    cbv
  · exact (hword ['a', 'b']).1.2 (by cbv)
  · exact ((hword ['a', 'a', 'b']).2 .silent .silent).1.2 hstuck
  · have hiff := ((hword ['a']).2 .silent .silent).1
    rw [hnot] at hiff
    rw [Bool.eq_false_iff]
    intro h
    rcases hiff.1 h with ⟨e, he⟩
    cases he

end WordAutomata
