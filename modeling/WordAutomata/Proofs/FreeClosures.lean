import WordAutomata.Proofs.Paths
import WordAutomata.Proofs.DiscoveredSets

/-!
# Closures Under Epsilon Rules

The closure of a set of states is found by a walk, and what the walk finds has a
description that knows nothing of walks: it is the least set that contains the given one
and that no epsilon rule leads out of. Everything that makes it a closure operator follows
from these three facts, so the proofs below look at paths once, where they show that the
walk finds the least such set, and not again.

Two lists of rules with the same epsilon rules have the same closed sets. That is why
neither the order of the rules nor how often one is given is seen in a closure, and the
rules that read a character are not seen either.

The walk takes each state of the closure from its list once. A state that is not among
those it starts with is the target of an epsilon rule, so the rounds of the loop are at
most as many as the given states and the epsilon rules together, whatever cycles there are.

## Main definitions

* `Finite.FreelyReaches`: Epsilon rules lead from one state to another.
* `Nfa.Rulebook.IsClosed`: A set out of which no epsilon rule leads.

## Theorems

* `Nfa.Rulebook.mem_closure_iff_freelyReaches`: The states of a closure.
* `Nfa.Rulebook.subset_closure`, `isClosed_closure`, `closure_subset`: A closure is the
  least closed set around the given one.
* `Nfa.Rulebook.closure_mono`, `closure_union`, `closure_congr`: What follows from that.
* `Nfa.Rulebook.length_visits_freeWalk`, `size_closure_le`: The rounds of the walk.
* `Nfa.Rulebook.closure_reaches`: All of this, for any list of rules.
-/

universe u

namespace WordAutomata

/-- Epsilon rules of a list lead, one after the other, from one state to another. -/
def Finite.FreelyReaches {S : Type u} (rules : List (Finite.Rule S)) (s t : S) : Prop :=
  Relation.ReflTransGen (fun p q => ⟨p, .epsilon, q⟩ ∈ rules) s t

namespace Nfa.Rulebook

variable {S : Type u} [Ordered S] {b : Rulebook S} {A B X : SortedSet S} {s t : S}

/-- A closure holds what epsilon rules lead to. -/
theorem mem_closure_iff_freelyReaches :
    t ∈ b.closure A ↔ ∃ s ∈ A, Finite.FreelyReaches b.rules s t := by
  have hleads : b.freeMoves.Leads = fun p q => ⟨p, .epsilon, q⟩ ∈ b.rules := by
    funext p q
    exact propext leads_freeMoves
  simp only [mem_closure, ← reflTransGen_freeMoves_iff, hleads, Finite.FreelyReaches]

/-! ## The least closed set -/

/-- No epsilon rule leads out of a set. -/
def IsClosed (b : Rulebook S) (X : SortedSet S) : Prop :=
  ∀ s ∈ X, ∀ t, ⟨s, .epsilon, t⟩ ∈ b.rules → t ∈ X

theorem subset_closure (hs : s ∈ A) : s ∈ b.closure A :=
  mem_closure_iff_freelyReaches.2 ⟨s, hs, .refl⟩

theorem isClosed_closure (b : Rulebook S) (A : SortedSet S) : b.IsClosed (b.closure A) := by
  intro s hs t ht
  rcases mem_closure_iff_freelyReaches.1 hs with ⟨p, hp, hreach⟩
  exact mem_closure_iff_freelyReaches.2 ⟨p, hp, hreach.tail ht⟩

/-- A closed set that contains the given states contains their closure. -/
theorem closure_subset (hX : b.IsClosed X) (hA : ∀ s ∈ A, s ∈ X) (ht : t ∈ b.closure A) :
    t ∈ X := by
  rcases mem_closure_iff_freelyReaches.1 ht with ⟨s, hs, hreach⟩
  -- Each rule on the way starts in the set and so cannot leave it.
  induction hreach with
  | refl => exact hA s hs
  | tail hreach hstep ih =>
      exact hX _ (ih (mem_closure_iff_freelyReaches.2 ⟨s, hs, hreach⟩)) _ hstep

theorem closure_mono (hAB : ∀ s ∈ A, s ∈ B) (ht : t ∈ b.closure A) : t ∈ b.closure B :=
  closure_subset (isClosed_closure b B) (fun s hs => subset_closure (hAB s hs)) ht

/-- Two closures side by side are closed, so nothing has to be added. -/
theorem closure_union (b : Rulebook S) (A B : SortedSet S) :
    b.closure (A.union B) = (b.closure A).union (b.closure B) := by
  have hclosed : b.IsClosed ((b.closure A).union (b.closure B)) := by
    intro s hs t ht
    rw [SortedSet.mem_union] at hs ⊢
    rcases hs with hs | hs
    · exact .inl (isClosed_closure b A s hs t ht)
    · exact .inr (isClosed_closure b B s hs t ht)
  apply SortedSet.ext_mem
  intro t
  constructor
  · intro ht
    refine closure_subset hclosed (fun s hs => ?_) ht
    rw [SortedSet.mem_union] at hs ⊢
    rcases hs with hs | hs
    · exact .inl (subset_closure hs)
    · exact .inr (subset_closure hs)
  · intro ht
    rcases SortedSet.mem_union.1 ht with ht | ht
    · exact closure_mono (fun s hs => SortedSet.mem_union.2 (.inl hs)) ht
    · exact closure_mono (fun s hs => SortedSet.mem_union.2 (.inr hs)) ht

/-- Only the epsilon rules count, and not where in the list they stand or how often. -/
theorem closure_congr {c : Rulebook S}
    (h : ∀ r : Finite.Rule S, r.symbol = .epsilon → (r ∈ c.rules ↔ r ∈ b.rules)) (A : SortedSet S) :
    c.closure A = b.closure A := by
  have hstep : (fun p q : S => (⟨p, .epsilon, q⟩ : Finite.Rule S) ∈ c.rules) =
      fun p q => ⟨p, .epsilon, q⟩ ∈ b.rules := by
    funext p q
    exact propext (h ⟨p, .epsilon, q⟩ rfl)
  apply SortedSet.ext_mem
  intro t
  simp only [mem_closure_iff_freelyReaches, Finite.FreelyReaches, hstep]

/-! ## The rounds of the walk -/

/-- Each state of the closure is taken from the list of waiting states once. -/
theorem length_visits_freeWalk (b : Rulebook S) (A : SortedSet S) :
    (b.freeWalk A.toList).visits.length = (b.closure A).size := by
  have hvisits : ((b.freeWalk A.toList).visits.map Visit.node).Perm
      (b.freeWalk A.toList).discovered.toList := Graph.perm_nodes_explore
  have hclosure : (b.closure A).size = (b.freeWalk A.toList).discovered.size :=
    SortedSet.size_eq_size fun s => SortedSet.mem_ofList.trans Numbering.mem_toList
  rw [← List.length_map Visit.node, hvisits.length_eq, hclosure, Numbering.length_toList]

/-- What a closure adds is the target of an epsilon rule. -/
theorem size_closure_le (b : Rulebook S) (A : SortedSet S) :
    (b.closure A).size ≤ A.size + b.rules.countP fun r => r.symbol.isEpsilon := by
  have hsub : (b.closure A).toList ⊆
      A.toList ++ (b.rules.filter fun r => r.symbol.isEpsilon).map Finite.Rule.target := by
    intro t ht
    rcases mem_closure_iff_freelyReaches.1 ht with ⟨s, hs, hreach⟩
    rcases Relation.ReflTransGen.cases_tail hreach with rfl | ⟨p, _, hstep⟩
    · exact List.mem_append_left _ hs
    · refine List.mem_append_right _ (List.mem_map.2 ⟨⟨p, .epsilon, t⟩, ?_, rfl⟩)
      exact List.mem_filter.2 ⟨hstep, rfl⟩
  have hle := (SortedSet.nodup_toList (b.closure A)).length_le_of_subset hsub
  rw [List.length_append, List.length_map, ← List.countP_eq_length_filter] at hle
  exact hle

/-- The closure of a set of states holds what epsilon rules lead to from the set. It is found
    in one round for each of its states, of which there are at most as many as given states
    and epsilon rules. Lists of rules with the same epsilon rules give the same closures. A
    set is contained in its closure, larger sets have larger closures, a closure is its own
    closure, and the closure of a union is the union of the closures. -/
theorem closure_reaches (rules : List (Finite.Rule S)) :
    (∀ A t, t ∈ (ofRules rules).closure A ↔ ∃ s ∈ A, Finite.FreelyReaches rules s t) ∧
    (∀ A : SortedSet S,
      ((ofRules rules).freeWalk A.toList).visits.length = ((ofRules rules).closure A).size ∧
      ((ofRules rules).closure A).size ≤ A.size + rules.countP fun r => r.symbol.isEpsilon) ∧
    (∀ more : List (Finite.Rule S),
      (∀ r, r.symbol = .epsilon → (r ∈ more ↔ r ∈ rules)) →
      ∀ A, (ofRules more).closure A = (ofRules rules).closure A) ∧
    (∀ A : SortedSet S, ∀ s ∈ A, s ∈ (ofRules rules).closure A) ∧
    (∀ A B : SortedSet S, (∀ s ∈ A, s ∈ B) →
      ∀ t ∈ (ofRules rules).closure A, t ∈ (ofRules rules).closure B) ∧
    (∀ A, (ofRules rules).closure ((ofRules rules).closure A) = (ofRules rules).closure A) ∧
    (∀ A B, (ofRules rules).closure (A.union B) =
      ((ofRules rules).closure A).union ((ofRules rules).closure B)) := by
  refine ⟨fun A t => mem_closure_iff_freelyReaches,
    fun A => ⟨length_visits_freeWalk _ A, size_closure_le _ A⟩, fun more hmore A => ?_,
    fun A s hs => subset_closure hs, fun A B hAB t ht => closure_mono hAB ht,
    fun A => closure_closure, fun A B => closure_union _ A B⟩
  exact closure_congr (b := ofRules rules) (c := ofRules more) hmore A

end Nfa.Rulebook

end WordAutomata
