import WordAutomata.Dfa.Basic
import WordAutomata.Dpda.Basic
import Mathlib

/-!
# Rules That Share a Place

A deterministic rulebook files its rules in a table, one by one, and gives up at the first
rule whose place is taken. What the list of rules is like at that moment can be said
without the table: the rule has a place that some rule in front of it has too, and no rule
in front of it has that trouble. A list without such a rule is filed to its end.

A rule that stands in the list twice shares its place with itself. It is refused like two
rules that differ, since a table has only one rule for each place, and the table that would
come out is not looked at.

Once a list is filed, looking up in the table and going through the list find the same. The
place of a rule is all that decides whether the rule applies, so at most one rule of the
list applies to a query, and it does so at one position only. For a pushdown automaton a
query is a configuration. It may have no state or no top, and then there is no place to
look in and no rule that applies.

## Main definitions

* `Catalogue.Shared`: Rules at different positions have the same key.
* `Catalogue.Repeats`, `Catalogue.FirstRepeat`: A rule whose key an earlier rule has.
* `Catalogue.FindsOnly`: What is found is the only rule of a list that passes a test.

## Theorems

* `Catalogue.shared_iff_not_nodup`: Shared keys are repetitions in the list of keys.
* `Catalogue.firstRepeat_of_tabulate`: The rule at which filing gives up.
* `Catalogue.tabulate_fails_iff`, `fails_iff_shared`: When it gives up.
* `Catalogue.findsOnly_find?`: A scan finds the only rule that there is.
* `Dfa.Rulebook.ofRules_eq_error_iff`, `findsOnly_rule?`: The same for the rulebook of a
  finite automaton.
* `Dpda.Rulebook.ofRules_eq_error_iff`, `findsOnly_rule?`, `rule?_eq_none`: And for that of
  a pushdown automaton.
* `ofRules_fails_or_finds`: What becomes of a list of rules, for both kinds of automata.
-/

universe u v w

namespace WordAutomata

namespace Catalogue

variable {ρ : Type u} {κ : Type v} {key : ρ → κ} {rules front back : List ρ} {r : ρ}

/-- Two rules at different positions of a list have the same key, be they equal or not. -/
def Shared (key : ρ → κ) (rules : List ρ) : Prop :=
  ∃ (i j : Nat) (r s : ρ), i ≠ j ∧ rules[i]? = some r ∧ rules[j]? = some s ∧ key r = key s

/-- The rule at a position has a key that a rule at an earlier position has. -/
def Repeats (key : ρ → κ) (rules : List ρ) (j : Nat) (r : ρ) : Prop :=
  rules[j]? = some r ∧ ∃ (i : Nat) (s : ρ), i < j ∧ rules[i]? = some s ∧ key s = key r

/-- The rule at a position is the first one of which this is so. -/
def FirstRepeat (key : ρ → κ) (rules : List ρ) (j : Nat) (r : ρ) : Prop :=
  Repeats key rules j r ∧ ∀ i s, i < j → ¬ Repeats key rules i s

theorem shared_iff_not_nodup : Shared key rules ↔ ¬ (rules.map key).Nodup := by
  constructor
  · rintro ⟨i, j, r, s, hne, hi, hj, hkey⟩ hnodup
    -- In the list of keys the two positions hold the same.
    have hsame : (rules.map key)[i]? = (rules.map key)[j]? := by
      rw [List.getElem?_map, List.getElem?_map, hi, hj, Option.map_some, Option.map_some, hkey]
    have hlt : i < (rules.map key).length := by
      rw [List.length_map]
      exact (List.getElem?_eq_some_iff.1 hi).1
    exact hne ((List.getElem?_inj hlt hnodup).1 hsame)
  · intro h
    by_contra hshared
    refine h (List.nodup_iff_getElem?_ne_getElem?.2 fun i j hij hj heq => hshared ?_)
    rw [List.length_map] at hj
    have hi := Nat.lt_trans hij hj
    rw [List.getElem?_map, List.getElem?_map, List.getElem?_eq_getElem hi,
      List.getElem?_eq_getElem hj, Option.map_some, Option.map_some, Option.some.injEq] at heq
    exact ⟨i, j, rules[i], rules[j], Nat.ne_of_lt hij, List.getElem?_eq_getElem hi,
      List.getElem?_eq_getElem hj, heq⟩

/-- A rule whose key is in front of it repeats, and it is the first one to do so if no key
    is in front of it twice. -/
theorem firstRepeat_of_split (hfront : (front.map key).Nodup) (hr : key r ∈ front.map key) :
    FirstRepeat key (front ++ r :: back) front.length r := by
  have hbelow : ∀ i, i < front.length → (front ++ r :: back)[i]? = front[i]? :=
    fun i hi => List.getElem?_append_left hi
  rcases List.mem_map.1 hr with ⟨s, hs, hkey⟩
  rcases List.getElem?_of_mem hs with ⟨i, hi⟩
  have hilt := (List.getElem?_eq_some_iff.1 hi).1
  refine ⟨⟨by simp, i, s, hilt, ?_, hkey⟩, ?_⟩
  · rw [hbelow i hilt]
    exact hi
  · -- A repetition at an earlier position would be one among the rules in front.
    rintro k q hk ⟨hq, m, p, hm, hp, hpq⟩
    rw [hbelow k hk] at hq
    rw [hbelow m (Nat.lt_trans hm hk)] at hp
    exact shared_iff_not_nodup.1 ⟨m, k, p, q, Nat.ne_of_lt hm, hp, hq, hpq⟩ hfront

/-! ## Filing a list -/

section Filing

variable {ι : Type w} [Ordered κ] [Ordered ι] {row : ρ → κ} {column : ρ → ι}

/-- Filing gives up at the first rule whose place an earlier rule has. -/
theorem firstRepeat_of_tabulate (h : tabulate row column rules = .error r) :
    ∃ j, FirstRepeat (place row column) rules j r := by
  rcases foldlM_enter rules (holds_empty row column) (by simp) with
    ⟨table, ht, _⟩ | ⟨front, s, back, rfl, ht, hfront, hs⟩
  · rw [tabulate, ht] at h
    cases h
  · rw [tabulate, ht, Except.error.injEq] at h
    subst h
    exact ⟨front.length, firstRepeat_of_split hfront hs⟩

/-- Filing gives up exactly if rules share a place. -/
theorem tabulate_fails_iff :
    (∃ r, tabulate row column rules = .error r) ↔ Shared (place row column) rules := by
  rw [shared_iff_not_nodup]
  constructor
  · rintro ⟨r, hr⟩ hnodup
    rcases tabulate_of_nodup hnodup with ⟨table, ht⟩
    rw [hr] at ht
    cases ht
  · intro h
    cases htable : tabulate row column rules with
    | error r => exact ⟨r, rfl⟩
    | ok table => exact absurd (nodup_of_tabulate htable) h

/-- So does whatever fails when filing does. -/
theorem fails_iff_shared {ε β : Type _} {result : Except ε β} {fault : ρ → ε}
    (h : ∀ e, result = .error e ↔ ∃ r, tabulate row column rules = .error r ∧ e = fault r) :
    (∃ e, result = .error e) ↔ Shared (place row column) rules := by
  rw [← tabulate_fails_iff]
  constructor
  · rintro ⟨e, he⟩
    rcases (h e).1 he with ⟨r, hr, _⟩
    exact ⟨r, hr⟩
  · rintro ⟨r, hr⟩
    exact ⟨fault r, (h _).2 ⟨r, hr, rfl⟩⟩

end Filing

/-! ## Finding a rule -/

/-- What was found is the rule of a list that passes a test. No other rule passes it, nor
    does the same rule at another position. If no rule passes, nothing was found. -/
structure FindsOnly (test : ρ → Bool) (rules : List ρ) (found : Option ρ) : Prop where
  some_iff : ∀ r, found = some r ↔ r ∈ rules ∧ test r = true
  none_iff : found = none ↔ ∀ r ∈ rules, test r = false
  single : ∀ (i j : Nat) (r s : ρ), rules[i]? = some r → rules[j]? = some s → test r = true →
    test s = true → i = j

/-- If rules with different keys do not pass the same test, a scan of a list in which no key
    is repeated finds the only rule that passes. -/
theorem findsOnly_find? {test : ρ → Bool} (hnodup : (rules.map key).Nodup)
    (hkey : ∀ r s, test r = true → test s = true → key r = key s) :
    FindsOnly test rules (rules.find? test) where
  some_iff r := by
    constructor
    · intro h
      exact ⟨List.mem_of_find?_eq_some h, List.find?_some h⟩
    · rintro ⟨hr, htest⟩
      cases hfind : rules.find? test with
      | none => exact absurd htest (List.find?_eq_none.1 hfind r hr)
      | some s =>
          have hs := List.mem_of_find?_eq_some hfind
          have heq := hkey s r (List.find?_some hfind) htest
          rw [List.inj_on_of_nodup_map hnodup hs hr heq]
  none_iff := by simp only [List.find?_eq_none, Bool.not_eq_true]
  single i j r s hi hj hr hs := by
    by_contra hne
    exact shared_iff_not_nodup.1 ⟨i, j, r, s, hne, hi, hj, hkey r s hr hs⟩ hnodup

end Catalogue

open Catalogue

variable {S : Type u} [Ordered S]

namespace Dfa.Rulebook

/-- Rules cannot be put into a rulebook if they share source and symbol, and the first
    one that does is named. -/
theorem ofRules_eq_error_iff {rules : List (Finite.Rule S)} {e : AmbiguousRule S} :
    ofRules rules = .error e ↔
      ∃ r, tabulate Finite.Rule.source Finite.Rule.symbol rules = .error r ∧
        e = ⟨r.source, r.symbol⟩ := by
  unfold ofRules
  split
  · rename_i table h
    simp only [h, reduceCtorEq, false_and, exists_false]
  · rename_i r h
    simp only [h, Except.error.injEq, exists_eq_left', eq_comm]

/-- Looking up finds the only rule that applies. -/
theorem findsOnly_rule? (b : Rulebook S) (s : S) (x : Symbol) :
    FindsOnly (fun r => r.applies s x) b.rules (b.rule? s x) := by
  rw [rule?_eq]
  refine findsOnly_find? b.distinct fun r q hr hq => ?_
  simp only [Finite.Rule.applies, Bool.and_eq_true, decide_eq_true_eq] at hr hq
  rw [place, place, hr.1, hr.2, hq.1, hq.2]

end Dfa.Rulebook

namespace Dpda.Rulebook

/-- Rules cannot be put into a rulebook if they share source, symbol and popped character,
    and the first one that does is named. -/
theorem ofRules_eq_error_iff {rules : List (Pushdown.Rule S)} {e : AmbiguousRule (Top S)} :
    ofRules rules = .error e ↔
      ∃ r, tabulate Pushdown.Rule.source column rules = .error r ∧
        e = ⟨⟨r.source, r.popped⟩, r.symbol⟩ := by
  unfold ofRules
  split
  · rename_i table h
    simp only [h, reduceCtorEq, false_and, exists_false]
  · rename_i r h
    simp only [h, Except.error.injEq, exists_eq_left', eq_comm]

/-- Looking up finds the only rule that applies. -/
theorem findsOnly_rule? (b : Rulebook S) (c : Configuration S) (x : Symbol) :
    FindsOnly (fun r => r.applies c x) b.rules (b.rule? c x) := by
  rw [rule?_eq]
  refine findsOnly_find? (nodup_of_tabulate b.tabulated) fun r q hr hq => ?_
  simp only [Pushdown.Rule.applies, Bool.and_eq_true, decide_eq_true_eq] at hr hq
  -- Both rules have the state and the top of the configuration.
  have hsource : r.source = q.source := Option.some.inj (hr.1.1.symm.trans hq.1.1)
  have hpopped : r.popped = q.popped := Option.some.inj (hr.1.2.symm.trans hq.1.2)
  rw [Catalogue.place, Catalogue.place, column, column, hsource, hpopped, hr.2, hq.2]

/-- Without a state or a top there is no rule to find. -/
theorem rule?_eq_none {b : Rulebook S} {c : Configuration S} {x : Symbol}
    (h : c.isStuck = true ∨ c.stack.isEmpty = true) : b.rule? c x = none := by
  rw [(b.findsOnly_rule? c x).none_iff]
  intro r _
  rw [Pushdown.Rule.applies, Bool.and_eq_false_iff, Bool.and_eq_false_iff, decide_eq_false_iff_not,
    decide_eq_false_iff_not]
  refine .inl ?_
  rcases h with hstuck | hempty
  · have hstate : c.state? = none := Option.isNone_iff_eq_none.1 hstuck
    rw [hstate]
    exact .inl (Option.some_ne_none r.source).symm
  · have hsymbols : c.stack.symbols = [] := List.isEmpty_iff.1 hempty
    rw [Stack.top?, hsymbols]
    exact .inr (Option.some_ne_none r.popped).symm

end Dpda.Rulebook

/-- A list of rules becomes the rulebook of a deterministic automaton unless two rules at
    different positions, be they equal, share their place: source and symbol for a finite
    automaton, source, symbol and popped character for a pushdown automaton. If it does
    not, the error names the first rule whose place an earlier rule has. If it does, the
    rulebook has the rules as they were, and looking up finds the only rule that applies. -/
theorem ofRules_fails_or_finds [Describe S] :
    (∀ rules : List (Finite.Rule S),
      ((∃ e, Dfa.Rulebook.ofRules rules = .error e) ↔
        Shared (fun r => (r.source, r.symbol)) rules) ∧
      (∀ e, Dfa.Rulebook.ofRules rules = .error e →
        ∃ j r, FirstRepeat (fun r => (r.source, r.symbol)) rules j r ∧
          e = ⟨r.source, r.symbol⟩ ∧
          e.message = "Deterministic rulebook has multiple rules for state " ++
            describe r.source ++ " and symbol " ++ r.symbol.text) ∧
      (∀ b, Dfa.Rulebook.ofRules rules = .ok b → b.rules = rules ∧
        ∀ s x, FindsOnly (fun r => r.applies s x) rules (b.rule? s x))) ∧
    (∀ rules : List (Pushdown.Rule S),
      ((∃ e, Dpda.Rulebook.ofRules rules = .error e) ↔
        Shared (fun r => (r.source, r.symbol, r.popped)) rules) ∧
      (∀ e, Dpda.Rulebook.ofRules rules = .error e →
        ∃ j r, FirstRepeat (fun r => (r.source, r.symbol, r.popped)) rules j r ∧
          e = ⟨⟨r.source, r.popped⟩, r.symbol⟩ ∧
          e.message = "Deterministic rulebook has multiple rules for state " ++
            (describe r.source ++ " with " ++ r.popped.toString ++ " on top") ++
            " and symbol " ++ r.symbol.text) ∧
      (∀ b, Dpda.Rulebook.ofRules rules = .ok b → b.rules = rules ∧
        (∀ c x, FindsOnly (fun r => r.applies c x) rules (b.rule? c x)) ∧
        ∀ c x, c.isStuck = true ∨ c.stack.isEmpty = true → b.rule? c x = none)) := by
  refine ⟨fun rules => ⟨?_, fun e he => ?_, fun b hb => ?_⟩,
    fun rules => ⟨?_, fun e he => ?_, fun b hb => ?_⟩⟩
  · exact fails_iff_shared fun e => Dfa.Rulebook.ofRules_eq_error_iff
  · rcases Dfa.Rulebook.ofRules_eq_error_iff.1 he with ⟨r, hr, rfl⟩
    rcases firstRepeat_of_tabulate hr with ⟨j, hj⟩
    exact ⟨j, r, hj, rfl, AmbiguousRule.message_eq _⟩
  · have hrules := Dfa.Rulebook.rules_of_ofRules hb
    exact ⟨hrules, fun s x => hrules ▸ b.findsOnly_rule? s x⟩
  · exact fails_iff_shared fun e => Dpda.Rulebook.ofRules_eq_error_iff
  · rcases Dpda.Rulebook.ofRules_eq_error_iff.1 he with ⟨r, hr, rfl⟩
    rcases firstRepeat_of_tabulate hr with ⟨j, hj⟩
    exact ⟨j, r, hj, rfl, AmbiguousRule.message_eq _⟩
  · have hrules := Dpda.Rulebook.rules_of_ofRules hb
    refine ⟨hrules, fun c x => hrules ▸ b.findsOnly_rule? c x, fun c x h => ?_⟩
    exact Dpda.Rulebook.rule?_eq_none h

/-- Rules of which the fourth one is the second once more, and the last one differs from
    the first by its target. -/
def doubled : List (Finite.Rule Nat) :=
  [⟨1, .character 'a', 2⟩, ⟨2, .character 'b', 1⟩, ⟨1, .epsilon, 2⟩, ⟨2, .character 'b', 1⟩,
    ⟨1, .character 'a', 1⟩]

/-- Rules that share source and symbol, but not what they pop. -/
def topped : List (Pushdown.Rule Nat) :=
  [⟨1, .character 'a', 1, '$', ['x', '$']⟩, ⟨1, .character 'a', 1, 'x', []⟩]

/-- The rule that is named is the one that stands in the list twice. What is popped keeps
    rules apart, and without a top there is nothing to find. -/
theorem ofRules_fails_or_finds_doubled :
    Shared (fun r => (r.source, r.symbol)) doubled ∧
    (∃ e, Dfa.Rulebook.ofRules doubled = .error e ∧ e.place = 2 ∧ e.symbol = .character 'b' ∧
      ∃ j r, FirstRepeat (fun r => (r.source, r.symbol)) doubled j r ∧ e = ⟨r.source, r.symbol⟩) ∧
    ∃ b, Dpda.Rulebook.ofRules topped = .ok b ∧ b.rules = topped ∧
      b.rule? (.of 1 (.ofList ['x', '$'])) 'a' = some ⟨1, .character 'a', 1, 'x', []⟩ ∧
      b.rule? (.of 1 .empty) 'a' = none := by
  have hfails : Dfa.Rulebook.ofRules doubled = .error ⟨2, .character 'b'⟩ := by cbv
  have hok : (Dpda.Rulebook.ofRules topped).isOk = true := by cbv
  rcases (ofRules_fails_or_finds (S := Nat)).1 doubled with ⟨hshared, hfirst, _⟩
  rcases (ofRules_fails_or_finds (S := Nat)).2 topped with ⟨_, _, hfinds⟩
  rcases hfirst _ hfails with ⟨j, r, hrepeat, heq, _⟩
  refine ⟨hshared.1 ⟨_, hfails⟩, ⟨_, hfails, rfl, rfl, j, r, hrepeat, heq⟩, ?_⟩
  cases hb : Dpda.Rulebook.ofRules topped with
  | error e =>
      rw [hb] at hok
      cases hok
  | ok b =>
      rcases hfinds b hb with ⟨hrules, hscan, hnone⟩
      refine ⟨b, rfl, hrules, ?_, hnone _ _ (.inr rfl)⟩
      rw [(hscan _ _).some_iff]
      exact ⟨by simp only [topped, List.mem_cons, true_or, or_true], by cbv⟩

end WordAutomata
