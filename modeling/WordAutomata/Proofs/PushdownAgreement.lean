import WordAutomata.Proofs.DpdaRuns
import WordAutomata.Proofs.NpdaRuns
import Mathlib

/-!
# Deterministic Rules in Both Kinds of Pushdown Automata

Rules without ambiguity can be run by either kind of automaton. The one follows
them to the end and gets stuck if there is none. The other holds all that is
reached up to some height. Still, the second holds the configuration of the first
as long as the first is not stuck. For where epsilon rules come to an end, no
repetition is met on the way, so no pile either, and the closure cuts off nothing
of it. Taller stacks that are reached from other configurations do not matter.

The converse asks for two more things. The first automaton takes an epsilon rule
even if it could read, so it loses words if a state and a top have rules for
both. And it judges at the end of epsilon rules only, so it loses words if these
lead on from an accept state. `Unmixed` and `RestsIn` exclude that, and then every
way to an accept state is one on which each character is read at rest.

## Main definitions

* `Pushdown.Unmixed`: No state and top have rules both for epsilon and to read.
* `Pushdown.RestsIn`: No epsilon rule leaves some states.
* `Dpda.parentheses`: Rules for balanced parentheses.

## Theorems

* `Pushdown.Reaches.settles`: Without choices, what is reached is settled in.
* `Npda.Rulebook.mem_foldl_of_settles`: What a word settles in is never cut off.
* `Dpda.agrees_with_npda`: How the two kinds of automata agree.
-/

universe u

namespace WordAutomata

open Pushdown

variable {S : Type u} [Ordered S]

namespace Pushdown

variable {rules : List (Rule S)} {c d : Configuration S} {accepting : SortedSet S}

/-- No state and top of a stack have both an epsilon rule and a rule for a
    character. -/
def Unmixed (rules : List (Rule S)) : Prop :=
  ∀ r ∈ rules, ∀ r' ∈ rules, (r.source, r.popped) = (r'.source, r'.popped) →
    r.symbol = .epsilon → r'.symbol = .epsilon

/-- No epsilon rule leaves any of these states. -/
def RestsIn (rules : List (Rule S)) (states : SortedSet S) : Prop :=
  ∀ r ∈ rules, r.symbol = .epsilon → ¬ r.source ∈ states

/-- Where a character can be read, no epsilon rule applies. -/
theorem Unmixed.rests (h : Unmixed rules) {a : Char} (hread : Step rules (.character a) c d) :
    ∀ e, ¬ Step rules .epsilon c e := by
  rintro e ⟨r, hr, happ, _⟩
  rcases hread with ⟨r', hr', happ', _⟩
  rcases Rule.applies_iff.1 happ with ⟨hat, hfree⟩
  rcases Rule.applies_iff.1 happ' with ⟨hat', hsymbol⟩
  have hkey := hat.unique hat'
  have hfree' := h r hr r' hr' hkey hfree
  rw [hsymbol] at hfree'
  cases hfree'

/-- In an accept state no epsilon rule applies. -/
theorem RestsIn.rests (h : RestsIn rules accepting) (hd : d.isIn accepting = true) :
    ∀ e, ¬ Step rules .epsilon d e := by
  rintro e ⟨r, hr, happ, _⟩
  rcases Rule.applies_iff.1 happ with ⟨⟨hstate, _⟩, hfree⟩
  rcases Configuration.isIn_iff.1 hd with ⟨s, hs, hstate'⟩
  obtain rfl : r.source = s := Option.some.inj (hstate.symm.trans hstate')
  exact h r hr hfree hs

/-- Without a choice between an epsilon rule and something else, what is reached is
    settled in. -/
theorem Reaches.settles {w : List Char} (h : Reaches rules c w d) (hunmixed : Unmixed rules)
    (hrests : RestsIn rules accepting) (hd : d.isIn accepting = true) : Settles rules c w d := by
  -- Epsilon rules have come to their end where a character is read, and at the last.
  induction h with
  | refl c => exact .rest ⟨.refl, hrests.rests hd⟩
  | free hstep _ ih => exact (ih hd).head hstep
  | read hread _ ih => exact .read ⟨.refl, hunmixed.rests hread⟩ hread (ih hd)

theorem Grows.endless (h : Grows rules c) : Endless rules c := by
  rcases h with ⟨e, k, pile, hreach, hat, hrepeats, _⟩
  induction hreach using Relation.ReflTransGen.head_induction_on with
  | refl => exact hrepeats.endless hat
  | head hstep _ ih => exact ih.head hstep

end Pushdown

namespace Npda.Rulebook

variable {b : Dpda.Rulebook S} {n : Rulebook S} {cs : SortedSet (Configuration S)}
  {c d : Configuration S} {w : List Char}

/-- The end of epsilon rules is never cut off: they meet no pile on the way. -/
theorem mem_closure_of_endsAt (hrules : n.rules = b.rules) (hc : c ∈ cs)
    (hends : EndsAt b.rules c d) : d ∈ (n.closure cs).configurations := by
  -- A pile could be repeated forever, and then there would be no end.
  have hgrows : ¬ Grows n.rules c := by
    rw [hrules]
    intro hgrows
    exact Dpda.Rulebook.not_endless_of_endsAt hends hgrows.endless
  apply mem_closure_of_not_grows hc hgrows
  rw [hrules]
  exact hends.1

/-- What a word settles in is never cut off. -/
theorem mem_foldl_of_settles (hrules : n.rules = b.rules) (hc : c ∈ cs)
    (h : Settles b.rules c w d) : d ∈ w.foldl n.advance (n.closure cs).configurations := by
  induction h generalizing cs with
  | rest hends => exact mem_closure_of_endsAt hrules hc hends
  | read hends hread _ ih =>
      apply ih
      rw [← hrules] at hread
      exact mem_step.2 ⟨_, mem_closure_of_endsAt hrules hc hends, hread⟩

end Npda.Rulebook

namespace Dpda

variable [Describe S] {a : Dpda S} {n : Npda S} {w : List Char}

omit [Describe S] in
/-- The automaton that starts with a single symbol on its stack. -/
def onBottom (start : S) (bottom : Char) (accepting : SortedSet S) (b : Rulebook S) : Dpda S :=
  ⟨.of start (.ofList [bottom]), accepting, b⟩

/-- A run that is not stuck is one of those that the other automaton follows. -/
theorem mem_configurations_of_not_isStuck (hrules : n.rulebook.rules = a.rulebook.rules)
    (hstart : n.startConfiguration = a.start) {log log' : Log}
    (h : ((a.run log).readWord w).isStuck = false) :
    ((a.run log).readWord w).configuration ∈ ((n.run log').readWord w).configurations := by
  have hsettles := (Run.configuration_readWord_iff h).1 rfl
  rw [Npda.Run.configurations_readWord]
  apply Npda.Rulebook.mem_foldl_of_settles hrules _ hsettles
  exact SortedSet.mem_singleton.2 hstart.symm

theorem npda_accepts_of_accepts (hrules : n.rulebook.rules = a.rulebook.rules)
    (hstart : n.startConfiguration = a.start) (haccepting : n.accepting = a.accepting)
    (h : a.accepts w = true) : n.accepts w = true := by
  rcases accepts_iff.1 h with ⟨d, hsettles, hd⟩
  rw [← haccepting] at hd
  -- What the first one settles in is held by the second at the end of the word.
  refine Npda.accepts_iff.2 ⟨d, ?_, hd⟩
  exact Npda.Rulebook.mem_foldl_of_settles hrules (SortedSet.mem_singleton.2 hstart.symm) hsettles

theorem accepts_of_npda_accepts (hrules : n.rulebook.rules = a.rulebook.rules)
    (hstart : n.startConfiguration = a.start) (haccepting : n.accepting = a.accepting)
    (hunmixed : Unmixed a.rulebook.rules) (hrests : RestsIn a.rulebook.rules a.accepting)
    (h : n.accepts w = true) : a.accepts w = true := by
  rcases Npda.reaches_of_accepts h with ⟨d, hreaches, hd⟩
  rw [hrules, hstart] at hreaches
  rw [haccepting] at hd
  exact accepts_iff.2 ⟨d, hreaches.settles hunmixed hrests hd, hd⟩

/-- Rules without ambiguity in a deterministic automaton, and the same rules in one
    that is not, with the same start and accept states. As long as the first is not
    stuck, its configuration is one of those that the second holds, so what the
    first accepts the second accepts. They accept the same words if no state and top
    have rules both for epsilon and to read, and no epsilon rule leaves an accept
    state. -/
theorem agrees_with_npda (rules : List (Rule S)) (b : Rulebook S)
    (hb : Rulebook.ofRules rules = .ok b) (start : S) (bottom : Char) (accepting : SortedSet S) :
    (∀ w log log', (((onBottom start bottom accepting b).run log).readWord w).isStuck = false →
      (((onBottom start bottom accepting b).run log).readWord w).configuration ∈
        (((Npda.mk start bottom accepting (.ofRules rules)).run log').readWord w).configurations) ∧
    (∀ w, (onBottom start bottom accepting b).accepts w = true →
      (Npda.mk start bottom accepting (.ofRules rules)).accepts w = true) ∧
    (Unmixed rules → RestsIn rules accepting → ∀ w,
      (onBottom start bottom accepting b).accepts w =
        (Npda.mk start bottom accepting (.ofRules rules)).accepts w) := by
  have hrules : (Npda.Rulebook.ofRules rules).rules = b.rules :=
    (Rulebook.rules_of_ofRules hb).symm
  refine ⟨fun w log log' h => ?_, fun w h => ?_, fun hunmixed hrests w => ?_⟩
  · exact mem_configurations_of_not_isStuck hrules rfl h
  · exact npda_accepts_of_accepts hrules rfl rfl h
  · rw [← Rulebook.rules_of_ofRules hb] at hunmixed hrests
    rw [Bool.eq_iff_iff]
    constructor
    · exact npda_accepts_of_accepts hrules rfl rfl
    · exact accepts_of_npda_accepts hrules rfl rfl hunmixed hrests

/-- Rules for balanced parentheses. Each one that is open is a symbol on the stack,
    and an epsilon rule goes back to the start at the bottom. -/
def parentheses : List (Rule Nat) :=
  [⟨1, .character '(', 2, '$', ['b', '$']⟩, ⟨2, .character '(', 2, 'b', ['b', 'b']⟩,
    ⟨2, .character ')', 2, 'b', []⟩, ⟨2, .epsilon, 1, '$', ['$']⟩]

/-- Balanced parentheses are accepted by both kinds of automata. -/
theorem agrees_with_npda_parentheses :
    ∃ b, Rulebook.ofRules parentheses = .ok b ∧ Unmixed parentheses ∧
      RestsIn parentheses (.singleton 1) ∧
      (onBottom 1 '$' (.singleton 1) b).accepts ['(', '(', ')', ')', '(', ')'] = true ∧
      (onBottom 1 '$' (.singleton 1) b).accepts ['(', '(', ')'] = false := by
  have hok : (Rulebook.ofRules parentheses).isOk = true := by cbv
  cases hb : Rulebook.ofRules parentheses with
  | error e =>
      rw [hb] at hok
      cases hok
  | ok b =>
      have hunmixed : Unmixed parentheses := by
        unfold Unmixed
        decide
      have hrests : RestsIn parentheses (.singleton 1) := by
        have hsource : ∀ r ∈ parentheses, r.symbol = .epsilon → r.source ≠ 1 := by decide
        intro r hr hfree hmem
        exact hsource r hr hfree (SortedSet.mem_singleton.1 hmem)
      have hagree := (agrees_with_npda parentheses b hb 1 '$' (.singleton 1)).2.2 hunmixed hrests
      refine ⟨b, rfl, hunmixed, hrests, ?_, ?_⟩
      · rw [hagree]
        cbv
      · rw [hagree]
        cbv

end Dpda

end WordAutomata
