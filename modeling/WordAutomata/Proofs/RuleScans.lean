import WordAutomata.Nfa.Basic
import WordAutomata.Npda.Basic

/-!
# Scanning the Rules

A rulebook files its rules by source and looks only at one group of them. For a pushdown
automaton the group still has rules in it that pop something else, so every test is made
again there. For a finite automaton only the symbol is compared, and the source is taken on
trust. Either way the rules that come out are those that a scan of the whole list finds, in
the order of the list, and a rule that stands there twice comes out twice.

The order is lost in the next step. A set of states or of configurations is moved by
gathering what rules lead to from its members, and a set knows neither order nor number.
All that is left of the list of rules is the relation that they make. So rules may be given
in any order and any number of times, and a set may be moved in parts.

## Main definitions

* `SortedSet.Gathers`: A function of sets gathers what a relation leads to.

## Theorems

* `SortedSet.Gathers.union`: What is gathered from a union.
* `SortedSet.Gathers.congr`: What is gathered after the same findings.
* `Nfa.Rulebook.gathers_step`, `Npda.Rulebook.gathers_step`: Moving a set is gathering.
* `Nfa.Rulebook.step_congr`, `Npda.Rulebook.step_congr`: The order of the rules is not seen.
* `rulesFor_scans`: Looking up and scanning, for both kinds of automata.
-/

universe u v w

namespace WordAutomata

namespace SortedSet

variable {σ : Type u} {τ : Type v} {ρ : Type w} [Ordered σ] [Ordered τ] {leads : σ → τ → Prop}
  {found found' : σ → List ρ} {follow : ρ → σ → τ} {f g : SortedSet σ → SortedSet τ}

/-- A function of sets gathers what a relation leads to from any of the members. -/
def Gathers (leads : σ → τ → Prop) (f : SortedSet σ → SortedSet τ) : Prop :=
  ∀ A t, t ∈ f A ↔ ∃ s ∈ A, leads s t

/-- Following what is found for each member, and sorting what comes of it, is gathering. -/
theorem gathers_flatMap (found : σ → List ρ) (follow : ρ → σ → τ) :
    Gathers (fun s t => ∃ r ∈ found s, t = follow r s) fun A =>
      .ofList (A.toList.flatMap fun s => (found s).map fun r => follow r s) := by
  intro A t
  rw [mem_ofList, List.mem_flatMap]
  -- Only the sides of the equation stand the other way round.
  constructor
  · intro h
    rcases h with ⟨s, hs, ht⟩
    rcases List.mem_map.1 ht with ⟨r, hr, rfl⟩
    exact ⟨s, hs, r, hr, rfl⟩
  · intro h
    rcases h with ⟨s, hs, r, hr, rfl⟩
    exact ⟨s, hs, List.mem_map.2 ⟨r, hr, rfl⟩⟩

theorem Gathers.union (h : Gathers leads f) (A B : SortedSet σ) :
    f (A.union B) = (f A).union (f B) := by
  apply ext_mem
  intro t
  rw [mem_union, h, h, h]
  simp only [mem_union, or_and_right, exists_or]

/-- What is found may come in any order and any number of times. -/
theorem Gathers.congr (hf : Gathers (fun s t => ∃ r ∈ found s, t = follow r s) f)
    (hg : Gathers (fun s t => ∃ r ∈ found' s, t = follow r s) g)
    (h : ∀ s r, r ∈ found s ↔ r ∈ found' s) (A : SortedSet σ) : f A = g A := by
  apply ext_mem
  intro t
  rw [hf, hg]
  simp only [h]

end SortedSet

open SortedSet

variable {S : Type u} [Ordered S]

namespace Nfa.Rulebook

/-- A set of states is moved by gathering the targets of the rules that apply. -/
theorem gathers_step (b : Rulebook S) (x : Symbol) :
    Gathers (fun s t => ∃ r ∈ b.rulesFor s x, t = r.target) fun A => b.step A x :=
  gathers_flatMap (fun s => b.rulesFor s x) fun r _ => r.target

/-- Rules in another order, or given more often, move sets in the same way. -/
theorem step_congr {b c : Rulebook S} (h : ∀ r, r ∈ c.rules ↔ r ∈ b.rules) (A : SortedSet S)
    (x : Symbol) : c.step A x = b.step A x := by
  refine (c.gathers_step x).congr (b.gathers_step x) (fun s r => ?_) A
  rw [mem_rulesFor, mem_rulesFor, h]

end Nfa.Rulebook

namespace Npda.Rulebook

/-- A set of configurations is moved by gathering what follows by the rules that apply. -/
theorem gathers_step (b : Rulebook S) (x : Symbol) :
    Gathers (fun c d => ∃ r ∈ b.rulesFor c x, d = r.follow c) fun A => b.step A x :=
  gathers_flatMap (fun c => b.rulesFor c x) Pushdown.Rule.follow

/-- Rules in another order, or given more often, move sets in the same way. -/
theorem step_congr {b c : Rulebook S} (h : ∀ r, r ∈ c.rules ↔ r ∈ b.rules)
    (A : SortedSet (Configuration S)) (x : Symbol) : c.step A x = b.step A x := by
  refine (c.gathers_step x).congr (b.gathers_step x) (fun d r => ?_) A
  rw [mem_rulesFor, mem_rulesFor, h]

end Npda.Rulebook

/-- Looking up finds the rules of the list that apply, in the order of the list and each as
    often as it stands there. A set of states, or of configurations, is moved to all that
    these rules lead to from its members. The order of the rules and their number have no
    influence on that, and a union is moved to the union of what its parts are moved to. -/
theorem rulesFor_scans (S : Type u) [Ordered S] :
    (∀ rules : List (Finite.Rule S),
      (∀ s x, (Nfa.Rulebook.ofRules rules).rulesFor s x =
        rules.filter fun r => r.applies s x) ∧
      (∀ A x t, t ∈ (Nfa.Rulebook.ofRules rules).step A x ↔
        ∃ s ∈ A, ∃ r ∈ (Nfa.Rulebook.ofRules rules).rulesFor s x, t = r.target) ∧
      (∀ more : List (Finite.Rule S), (∀ r, r ∈ more ↔ r ∈ rules) → ∀ A x,
        (Nfa.Rulebook.ofRules more).step A x = (Nfa.Rulebook.ofRules rules).step A x) ∧
      ∀ A B x, (Nfa.Rulebook.ofRules rules).step (A.union B) x =
        ((Nfa.Rulebook.ofRules rules).step A x).union
          ((Nfa.Rulebook.ofRules rules).step B x)) ∧
    (∀ rules : List (Pushdown.Rule S),
      (∀ c x, (Npda.Rulebook.ofRules rules).rulesFor c x =
        rules.filter fun r => r.applies c x) ∧
      (∀ A x d, d ∈ (Npda.Rulebook.ofRules rules).step A x ↔
        ∃ c ∈ A, ∃ r ∈ (Npda.Rulebook.ofRules rules).rulesFor c x, d = r.follow c) ∧
      (∀ more : List (Pushdown.Rule S), (∀ r, r ∈ more ↔ r ∈ rules) → ∀ A x,
        (Npda.Rulebook.ofRules more).step A x = (Npda.Rulebook.ofRules rules).step A x) ∧
      ∀ A B x, (Npda.Rulebook.ofRules rules).step (A.union B) x =
        ((Npda.Rulebook.ofRules rules).step A x).union
          ((Npda.Rulebook.ofRules rules).step B x)) := by
  constructor
  · intro rules
    have hgathers := (Nfa.Rulebook.ofRules rules).gathers_step
    refine ⟨fun s x => Nfa.Rulebook.rulesFor_eq _ s x, fun A x => hgathers x A, ?_,
      fun A B x => (hgathers x).union A B⟩
    intro more hmore A x
    exact Nfa.Rulebook.step_congr (b := .ofRules rules) (c := .ofRules more) hmore A x
  · intro rules
    have hgathers := (Npda.Rulebook.ofRules rules).gathers_step
    refine ⟨fun c x => Npda.Rulebook.rulesFor_eq _ c x, fun A x => hgathers x A, ?_,
      fun A B x => (hgathers x).union A B⟩
    intro more hmore A x
    exact Npda.Rulebook.step_congr (b := .ofRules rules) (c := .ofRules more) hmore A x

/-- Rules of which the first and the fourth are the same, and two lead on from it to
    different states. -/
def branching : List (Finite.Rule Nat) :=
  [⟨1, 'a', 2⟩, ⟨2, 'a', 1⟩, ⟨1, 'a', 1⟩, ⟨1, 'a', 2⟩, ⟨1, .epsilon, 2⟩]

/-- Rules with one source and one symbol that pop different characters. -/
def sorting : List (Pushdown.Rule Nat) :=
  [⟨1, 'a', 2, 'x', ['x', 'y']⟩, ⟨1, 'a', 1, 'y', []⟩, ⟨1, 'a', 1, 'x', []⟩]

/-- A rule that stands in the list twice is found twice, and one that pops another character
    is not found. With the rules backwards and once more behind, sets are moved as before. -/
theorem rulesFor_scans_backwards :
    (Nfa.Rulebook.ofRules branching).rulesFor 1 'a' = [⟨1, 'a', 2⟩, ⟨1, 'a', 1⟩, ⟨1, 'a', 2⟩] ∧
    (Npda.Rulebook.ofRules sorting).rulesFor (.of 1 (.ofList ['x', '$'])) 'a' =
      [⟨1, 'a', 2, 'x', ['x', 'y']⟩, ⟨1, 'a', 1, 'x', []⟩] ∧
    (∀ A x, (Nfa.Rulebook.ofRules (branching.reverse ++ branching)).step A x =
      (Nfa.Rulebook.ofRules branching).step A x) ∧
    ∀ A x, (Npda.Rulebook.ofRules (sorting.reverse ++ sorting)).step A x =
      (Npda.Rulebook.ofRules sorting).step A x := by
  rcases (rulesFor_scans Nat).1 branching with ⟨hfinite, _, hbranching, _⟩
  rcases (rulesFor_scans Nat).2 sorting with ⟨hpushdown, _, hsorting, _⟩
  refine ⟨?_, ?_, hbranching _ fun r => ?_, hsorting _ fun r => ?_⟩
  · rw [hfinite]
    rfl
  · rw [hpushdown]
    rfl
  · simp only [List.mem_append, List.mem_reverse, or_self]
  · simp only [List.mem_append, List.mem_reverse, or_self]

end WordAutomata
