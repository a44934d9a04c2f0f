import WordAutomata.Exploration
import Mathlib.Logic.Relation

/-!
# What a Walk Finds

A walk through a graph is done when its list of waiting nodes is empty. Nothing
in the loop says that it has then been everywhere; that is an invariant. Every
node discovered so far has either been visited or still waits, and all that the
edges of a visited node lead to has been discovered. When nothing waits, the
discovered nodes therefore contain the seeds and are closed under edges. The
same invariant holds that nothing is discovered that cannot be reached.

`Progress` is this invariant, `Progress.step` says that taking a node keeps it,
and `progress_walk` that a whole walk does. Everything said of finished walks is
read off from it.

Together the two directions say that the order in which a walk takes its nodes
cannot be seen in what it finds, only in the order of the findings.

## Main definitions

* `Graph.Leads`: An edge between two nodes.
* `Graph.Reachable`: Edges that lead from a seed to a node.
* `Graph.Progress`: What holds of a walk at every moment.

## Theorems

* `Graph.Progress.step`: Taking a node keeps the invariant.
* `Graph.mem_discovered_explore`: A walk discovers what is reachable from its
  seeds.
* `Graph.mem_visits_explore`: It visits the same nodes.
-/

universe u v

namespace WordAutomata

namespace Graph

variable {α : Type u} {β : Type v}

/-- An edge leads from one node to the other. -/
def Leads (g : Graph α β) (a b : α) : Prop := b ∈ g.successors a

/-- Edges, in any number, lead from one of the seeds to the node. -/
def Reachable (g : Graph α β) (seeds : List α) (a : α) : Prop :=
  ∃ s ∈ seeds, Relation.ReflTransGen g.Leads s a

variable [Ordered α]

/-- What holds of a walk at every moment, of its waiting and discovered nodes
    and of the visits so far. -/
structure Progress (g : Graph α β) (seeds waiting : List α) (discovered : Numbering α)
    (visits : List (Visit α β)) : Prop where
  /-- The seeds are discovered. -/
  seeds_known : ∀ a ∈ seeds, a ∈ discovered
  /-- Only reachable nodes are discovered. -/
  reachable : ∀ a, a ∈ discovered → g.Reachable seeds a
  /-- A discovered node has been visited or waits. -/
  placed : ∀ a, a ∈ discovered ↔ a ∈ visits.map Visit.node ∨ a ∈ waiting
  /-- The edges of a visited node lead to discovered nodes. -/
  followed : ∀ v ∈ visits, ∀ b, g.Leads v.node b → b ∈ discovered

variable {g : Graph α β} {seeds : List α}

theorem progress_start :
    g.Progress seeds (Numbering.empty.insertAll seeds).2 (Numbering.empty.insertAll seeds).1
      [] where
  seeds_known a ha := Numbering.mem_insertAll.2 (.inr ha)
  reachable a ha := by
    rw [Numbering.mem_insertAll] at ha
    exact ⟨a, ha.resolve_left Numbering.not_mem_empty, .refl⟩
  placed a := by
    rw [Numbering.mem_insertAll, Numbering.mem_fresh_insertAll]
    simp only [Numbering.not_mem_empty, false_or, not_false_eq_true, and_true, List.map_nil,
      List.not_mem_nil]
  followed v hv := absurd hv List.not_mem_nil

/-- Taking a node keeps the invariant: the node moves from the waiting ones to
    the visits, and what its edges newly discover waits. -/
theorem Progress.step {a : α} {rest : List α} {n : Numbering α} {visits : List (Visit α β)}
    (h : g.Progress seeds (a :: rest) n visits) :
    g.Progress seeds ((n.insertAll (g.successors a)).2 ++ rest) (n.insertAll (g.successors a)).1
      (⟨a, g.edges a, (n.insertAll (g.successors a)).2⟩ :: visits) where
  seeds_known b hb := Numbering.mem_insertAll.2 (.inl (h.seeds_known b hb))
  reachable b hb := by
    rcases Numbering.mem_insertAll.1 hb with hb | hb
    · exact h.reachable b hb
    · rcases h.reachable a ((h.placed a).2 (.inr List.mem_cons_self)) with ⟨s, hs, ha⟩
      exact ⟨s, hs, ha.tail hb⟩
  placed b := by
    have hp := h.placed b
    simp only [List.map_cons, List.mem_cons, List.mem_append, Numbering.mem_insertAll,
      Numbering.mem_fresh_insertAll] at hp ⊢
    by_cases hb : b ∈ n
    · -- An old node stays where it is, but for the one that is taken.
      have hor := hp.1 hb
      constructor
      · intro _
        rcases hor with hv | rfl | hr
        · exact .inl (.inr hv)
        · exact .inl (.inl rfl)
        · exact .inr (.inr hr)
      · exact fun _ => .inl hb
    · have hnot := mt hp.2 hb
      constructor
      · intro hl
        exact .inr (.inl ⟨hl.resolve_left hb, hb⟩)
      · rintro ((rfl | hv) | ⟨hl, _⟩ | hr)
        · exact absurd (.inr (.inl rfl)) hnot
        · exact absurd (.inl hv) hnot
        · exact .inr hl
        · exact absurd (.inr (.inr hr)) hnot
  followed v hv b hb := by
    rcases List.mem_cons.1 hv with rfl | hv
    · exact Numbering.mem_insertAll.2 (.inr hb)
    · exact Numbering.mem_insertAll.2 (.inl (h.followed v hv b hb))

variable {inside : α → Prop} {confined : g.Confines inside}

/-- A walk keeps the invariant to its end, where nothing waits. -/
theorem progress_walk {waiting : List α} {hw : ∀ a ∈ waiting, inside a} {n : Numbering α}
    {visits : List (Visit α β)} (h : g.Progress seeds waiting n visits) :
    g.Progress seeds [] (g.walk inside confined waiting hw n visits).discovered
      (g.walk inside confined waiting hw n visits).visits := by
  fun_induction walk g inside confined waiting hw n visits with
  | case1 n visits =>
      refine ⟨h.seeds_known, h.reachable, fun a => ?_, fun v hv => ?_⟩
      · rw [List.map_reverse, List.mem_reverse]
        exact h.placed a
      · exact h.followed v (List.mem_reverse.1 hv)
  | case2 n visits a rest hw edges step _ _ ih => exact ih h.step

variable {hs : ∀ a ∈ seeds, inside a}

theorem progress_explore :
    g.Progress seeds [] (g.explore inside confined seeds hs).discovered
      (g.explore inside confined seeds hs).visits :=
  progress_walk progress_start

/-- A walk visits what it discovers. -/
theorem mem_visits_iff_mem_discovered {a : α} :
    a ∈ (g.explore inside confined seeds hs).visits.map Visit.node ↔
      a ∈ (g.explore inside confined seeds hs).discovered := by
  rw [progress_explore.placed a]
  simp only [List.not_mem_nil, or_false]

/-- A walk discovers exactly what is reachable from its seeds. -/
theorem mem_discovered_explore {a : α} :
    a ∈ (g.explore inside confined seeds hs).discovered.toList ↔ g.Reachable seeds a := by
  rw [Numbering.mem_toList]
  constructor
  · exact progress_explore.reachable a
  · rintro ⟨s, hseed, ha⟩
    induction ha with
    | refl => exact progress_explore.seeds_known s hseed
    | tail _ hbc ih =>
        -- What was discovered has been visited, and so its edges were followed.
        rcases List.mem_map.1 (mem_visits_iff_mem_discovered.2 ih) with ⟨v, hv, rfl⟩
        exact progress_explore.followed v hv _ hbc

/-- A walk visits exactly what is reachable from its seeds. -/
theorem mem_visits_explore {a : α} :
    a ∈ (g.explore inside confined seeds hs).visits.map Visit.node ↔ g.Reachable seeds a := by
  rw [mem_visits_iff_mem_discovered, ← Numbering.mem_toList, mem_discovered_explore]

end Graph

end WordAutomata
