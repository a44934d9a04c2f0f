import WordAutomata.Proofs.DfaRuns
import WordAutomata.Proofs.Trails
import Mathlib

/-!
# Runs Along the Only Trail

A deterministic run has no choice. For each character there is one rule that it can take,
or none. So as long as a word can be read there is a single row of rules that spells it,
and the run is at the end of this row. It is found again by looking at the rules alone,
without running anything.

Where the row cannot be continued the run stops. It does so in the middle of a word, in
front of a character, and whoever holds the run may go on with it. `Run.StopsAfter` names
the two things that are then the case: the front of the word was read, and the state to
which it led has no rule for the character. Such a place is the only reason why a word is
not read, and it settles the whole answer, so what stands behind the character makes no
difference.

Epsilon rules may be in the rulebook. A row that spells a word has a character on each of
its rules, so it has no place for them, and a run passes them by in the same way.

## Main definitions

* `Finite.Spells`: A row of rules with one character of a word on each.
* `Dfa.Run.StopsAfter`: A word is read, and then a rule is missing.

## Theorems

* `Finite.spells_cons_iff`: The first rule of such a row.
* `Dfa.Rulebook.spells_unique`: A word is spelled by one row at most.
* `Dfa.Rulebook.next_eq_error_iff`: When a rule is missing.
* `Dfa.Run.none_iff_spells`: A run reads what a row of rules spells.
* `Dfa.Run.readWord_stops_or_follows`: Where a run is after a word, read or not.
-/

universe u

namespace WordAutomata

namespace Finite

variable {S : Type u} {rules : List (Rule S)} {s t : S} {c : Char} {w : List Char}
  {trail : List (Rule S)}

/-- Rules of a list lead from one state to another, and there is one for each character of
    a word, in order. -/
structure Spells (rules : List (Rule S)) (s : S) (w : List Char) (trail : List (Rule S)) (t : S) :
    Prop where
  /-- All of the rules are in the list. -/
  listed : ∀ r ∈ trail, r ∈ rules
  /-- Each of them begins where the one before it ends. -/
  linked : Trail s trail t
  /-- No rule is taken without reading. -/
  letters : trail.map Rule.symbol = w.map Symbol.character

theorem spells_nil_iff : Spells rules s [] trail t ↔ trail = [] ∧ t = s := by
  constructor
  · intro h
    have hnil : trail = [] := List.map_eq_nil_iff.1 h.letters
    subst hnil
    cases h.linked with
    | nil => exact ⟨rfl, rfl⟩
  · rintro ⟨rfl, rfl⟩
    exact ⟨fun r hr => absurd hr List.not_mem_nil, .nil t, rfl⟩

/-- A row for a longer word is a rule for its first character and a row for the rest. -/
theorem spells_cons_iff : Spells rules s (c :: w) trail t ↔
    ∃ m rest, trail = ⟨s, .character c, m⟩ :: rest ∧ ⟨s, .character c, m⟩ ∈ rules ∧
      Spells rules m w rest t := by
  constructor
  · intro h
    rcases h with ⟨hlisted, hlinked, hletters⟩
    cases hlinked with
    | nil => cases hletters
    | @cons r _ _ _ rest hleads hrest =>
        -- The symbols agree one by one, so the first rule reads the first character.
        rcases List.cons.inj hletters with ⟨hsymbol, hmore⟩
        rcases r with ⟨source, symbol, target⟩
        rcases hleads with ⟨rfl, rfl⟩
        obtain rfl : symbol = .character c := hsymbol
        rcases List.forall_mem_cons.1 hlisted with ⟨hr, hothers⟩
        exact ⟨_, rest, rfl, hr, hothers, hrest, hmore⟩
  · rintro ⟨m, rest, rfl, hr, h⟩
    refine ⟨List.forall_mem_cons.2 ⟨hr, h.listed⟩, .cons ⟨rfl, rfl⟩ h.linked, ?_⟩
    rw [List.map_cons, List.map_cons, h.letters]

end Finite

namespace Dfa

variable {S : Type u} [Ordered S]

namespace Rulebook

variable {b : Rulebook S} {s t : S} {x : Symbol} {w : List Char}

/-- A rule is missing if none applies. -/
theorem next_eq_error_iff :
    b.next s x = .error ⟨s, x⟩ ↔ ∀ r ∈ b.rules, r.applies s x = false := by
  have hnone : b.rule? s x = none ↔ ∀ r ∈ b.rules, r.applies s x = false := by
    simp only [rule?_eq, List.find?_eq_none, Bool.not_eq_true]
  rw [← hnone, next]
  cases b.rule? s x with
  | none => simp only
  | some r => simp only [reduceCtorEq]

/-- At each character there is one rule to go on with, so a word is spelled by one row of
    rules at most. -/
theorem spells_unique {trail trail' : List (Finite.Rule S)} {t' : S}
    (h : Finite.Spells b.rules s w trail t) (h' : Finite.Spells b.rules s w trail' t') :
    trail' = trail ∧ t' = t := by
  induction w generalizing s trail trail' with
  | nil =>
      rcases Finite.spells_nil_iff.1 h with ⟨rfl, rfl⟩
      exact Finite.spells_nil_iff.1 h'
  | cons c w ih =>
      rcases Finite.spells_cons_iff.1 h with ⟨m, rest, rfl, hm, hrest⟩
      rcases Finite.spells_cons_iff.1 h' with ⟨m', rest', rfl, hm', hrest'⟩
      -- Both first rules are found by the same look-up.
      have hnext := next_of_mem hm
      rw [next_of_mem hm', Except.ok.injEq] at hnext
      subst hnext
      rcases ih hrest hrest' with ⟨rfl, rfl⟩
      exact ⟨rfl, rfl⟩

end Rulebook

variable [Describe S]

namespace Run

variable {run : Run S} {t : S} {w : List Char}

/-- The run reads a word, and then there is no rule for a character. -/
structure StopsAfter (run : Run S) (u : List Char) (c : Char) : Prop where
  read : (run.readWord u).2 = none
  missing : ∀ r ∈ run.automaton.rulebook.rules,
    r.applies (run.readWord u).1.state (.character c) = false

/-- A run reads what a row of rules spells, and comes to where it leads. -/
theorem none_iff_spells : (run.readWord w).2 = none ∧ (run.readWord w).1.state = t ↔
    ∃ trail, Finite.Spells run.automaton.rulebook.rules run.state w trail t := by
  induction w generalizing run with
  | nil =>
      simp only [Finite.spells_nil_iff, exists_eq_left]
      constructor
      · rintro ⟨_, rfl⟩
        rfl
      · rintro rfl
        exact ⟨rfl, rfl⟩
  | cons c w ih =>
      simp only [Finite.spells_cons_iff]
      cases hnext : run.automaton.rulebook.next run.state (.character c) with
      | error e =>
          -- The run stops at once, and no row can begin here.
          rw [readWord_cons_of_error hnext]
          constructor
          · rintro ⟨hnone, _⟩
            cases hnone
          · rintro ⟨_, m, rest, _, hm, _⟩
            rw [Rulebook.next_of_mem hm] at hnext
            cases hnext
      | ok m =>
          rcases read_of_next hnext with ⟨log, hread⟩
          rw [readWord_cons_of_ok hread, ih]
          constructor
          · rintro ⟨rest, hrest⟩
            exact ⟨_, m, rest, rfl, Rulebook.next_eq_ok_iff.1 hnext, hrest⟩
          · rintro ⟨_, m', rest, _, hm', hrest⟩
            -- The row takes the rule that the run takes.
            rw [Rulebook.next_of_mem hm', Except.ok.injEq] at hnext
            subst hnext
            exact ⟨rest, hrest⟩

/-- The run stops at the character, whatever follows. -/
theorem StopsAfter.readWord_eq {u : List Char} {c : Char} (h : run.StopsAfter u c)
    (v : List Char) : run.readWord (u ++ c :: v) =
      ((run.readWord u).1, some ⟨(run.readWord u).1.state, .character c⟩) :=
  readWord_append_cons_of_error h.read (Rulebook.next_eq_error_iff.2 h.missing) v

/-- A word is not read if its front is and leads to where a rule is missing. -/
theorem ne_none_iff_stopsAfter :
    (run.readWord w).2 ≠ none ↔ ∃ u c v, w = u ++ c :: v ∧ run.StopsAfter u c := by
  constructor
  · intro h
    rcases Option.ne_none_iff_exists'.1 h with ⟨e, he⟩
    rcases exists_next_eq_error he with ⟨u, c, v, rfl, hu, hnext⟩
    refine ⟨u, c, v, rfl, hu, ?_⟩
    rw [Rulebook.eq_of_next_eq_error hnext] at hnext
    exact Rulebook.next_eq_error_iff.1 hnext
  · rintro ⟨u, c, v, rfl, hstop⟩
    rw [hstop.readWord_eq v]
    exact Option.some_ne_none _

/-- A word is not read exactly if its front is and leads to a state without a rule for
    the next character. Then the run is left as the front left it, and the error tells
    this state and the character. A word that is read is spelled by one row of rules, and
    the run is at the end of it. After a word that was read another one is read as if both
    had been read at once. -/
theorem readWord_stops_or_follows (run : Run S) (w : List Char) :
    ((run.readWord w).2 ≠ none ↔ ∃ u c v, w = u ++ c :: v ∧ run.StopsAfter u c) ∧
    (∀ u c v, w = u ++ c :: v → run.StopsAfter u c →
      ∃ e, run.readWord w = ((run.readWord u).1, some e) ∧
        e.place = (run.readWord u).1.state ∧ e.symbol = .character c ∧
        e.message = "No applicable rule for state " ++ describe (run.readWord u).1.state ++
          " and symbol " ++ c.toString) ∧
    ((run.readWord w).2 = none ↔
      ∃ trail t, Finite.Spells run.automaton.rulebook.rules run.state w trail t) ∧
    (∀ trail t, Finite.Spells run.automaton.rulebook.rules run.state w trail t →
      (run.readWord w).1.state = t ∧
      ∀ other t', Finite.Spells run.automaton.rulebook.rules run.state w other t' →
        other = trail) ∧
    ((run.readWord w).2 = none →
      ∀ v, (run.readWord w).1.readWord v = run.readWord (w ++ v)) := by
  refine ⟨ne_none_iff_stopsAfter, fun u c v hw hstop => ?_, ⟨fun hread => ?_, ?_⟩,
    fun trail t htrail => ⟨?_, fun other t' hother => ?_⟩, fun hread v => ?_⟩
  · rw [hw, hstop.readWord_eq v]
    exact ⟨_, rfl, rfl, rfl, MissingRule.message_eq _⟩
  · rcases none_iff_spells.1 ⟨hread, rfl⟩ with ⟨trail, htrail⟩
    exact ⟨trail, _, htrail⟩
  · rintro ⟨trail, t, htrail⟩
    exact (none_iff_spells.2 ⟨trail, htrail⟩).1
  · exact (none_iff_spells.2 ⟨trail, htrail⟩).2
  · exact (Rulebook.spells_unique htrail hother).1
  · exact (readWord_append hread).symm

end Run

/-- A door that is opened and shut in turns, and locked while it is shut. -/
def door : Dfa Nat where
  start := 0
  accepting := .ofList [0, 2]
  rulebook := .ofDistinct
    [⟨0, .character 'o', 1⟩, ⟨1, .character 's', 0⟩, ⟨0, .character 'l', 2⟩] (by decide)

/-- An open door cannot be locked. It stays open, and can be shut and locked then. -/
theorem readWord_stops_or_follows_door :
    (door.run .silent).StopsAfter ['o'] 'l' ∧
    (∃ e, (door.run .silent).readWord ['o', 'l', 's'] =
        (((door.run .silent).readWord ['o']).1, some e) ∧
      e.message = "No applicable rule for state 1 and symbol l") ∧
    (∃ trail, Finite.Spells door.rulebook.rules 0 ['o', 's', 'l'] trail 2) ∧
    ((door.run .silent).readWord ['o']).1.readWord ['s', 'l'] =
      (door.run .silent).readWord ['o', 's', 'l'] := by
  have hstop : (door.run .silent).StopsAfter ['o'] 'l' := by
    refine ⟨by cbv, ?_⟩
    have hrules : (door.run .silent).automaton.rulebook.rules =
        [⟨0, .character 'o', 1⟩, ⟨1, .character 's', 0⟩, ⟨0, .character 'l', 2⟩] :=
      Rulebook.rules_ofDistinct
    have hstate : ((door.run .silent).readWord ['o']).1.state = 1 := by cbv
    rw [hrules, hstate]
    decide
  rcases Run.readWord_stops_or_follows (door.run .silent) ['o', 'l', 's'] with ⟨_, hstops, _⟩
  rcases Run.readWord_stops_or_follows (door.run .silent) ['o', 's', 'l'] with
    ⟨_, _, hspells, hend, _⟩
  rcases Run.readWord_stops_or_follows (door.run .silent) ['o'] with ⟨_, _, _, _, hparts⟩
  rcases hstops ['o'] 'l' ['s'] rfl hstop with ⟨e, heq, _, _, hmessage⟩
  rcases hspells.1 (by cbv) with ⟨trail, t, htrail⟩
  have ht : t = 2 := by
    rw [← (hend trail t htrail).1]
    cbv
  refine ⟨hstop, ⟨e, heq, ?_⟩, ⟨trail, ht ▸ htrail⟩, hparts hstop.read ['s', 'l']⟩
  rw [hmessage]
  cbv

end Dfa

end WordAutomata
