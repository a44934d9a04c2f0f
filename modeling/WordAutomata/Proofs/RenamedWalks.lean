import WordAutomata.Proofs.Discovery
import WordAutomata.Proofs.Renumbering

/-!
# Renamed Walks

A walk asks of a node only whether it has met the node before. So if the nodes of a
graph get other names, and different ones remain different, the walk goes the same
way: it takes the same edges in the same order, and discovers the same nodes under
their new names. How the new names are ordered does not matter. They are compared
to be looked up in a search tree, and what is found there does not depend on the
shape of the tree.

The names need to stay apart only for the nodes that a walk can meet, which is what
the property in `Numbering.Renames` and `Graph.Renaming` is for.

## Main definitions

* `Numbering.Renames`: A numbering gives renamed elements the same numbers.
* `Visit.map`: A visit with its node and its edges renamed.
* `Graph.Renaming`: A graph with other names for its nodes and edges.

## Theorems

* `Numbering.Renames.insertAll`: Inserting renamed elements keeps the numbers.
* `Graph.Renaming.walk`: A renamed walk visits and discovers the same, renamed.
* `Graph.Renaming.explore`: So does a whole exploration.
-/

universe u v w x

namespace WordAutomata

namespace Numbering

variable {α : Type u} [Ordered α] {n : Numbering α} {a : α}

theorem insertOnto_eq (n : Numbering α) (fresh : List α) (a : α) : insertOnto (n, fresh) a =
    ((n.insert a).2.2, if (n.insert a).2.1 = true then a :: fresh else fresh) := rfl

/-! ## Renamed elements -/

variable {β : Type v} [Ordered β] {m : Numbering β} {f : α → β} {P : α → Prop}

/-- The elements of the second numbering are those of the first one, which all have
    a property, with other names and the same numbers. -/
structure Renames (P : α → Prop) (f : α → β) (n : Numbering α) (m : Numbering β) : Prop where
  held : ∀ a, a ∈ n → P a
  toList_eq : m.toList = n.toList.map f

theorem renames_empty (P : α → Prop) (f : α → β) : Renames P f empty empty where
  held _ ha := absurd ha not_mem_empty
  toList_eq := rfl

variable (hapart : ∀ a b, P a → P b → f a = f b → a = b)
include hapart

theorem Renames.mem_iff (h : Renames P f n m) (ha : P a) : f a ∈ m ↔ a ∈ n := by
  rw [← mem_toList, h.toList_eq, List.mem_map, ← mem_toList]
  constructor
  · rintro ⟨b, hb, hba⟩
    rw [← hapart b a (h.held b (mem_toList.1 hb)) ha hba]
    exact hb
  · intro hmem
    exact ⟨a, hmem, rfl⟩

/-- One more element is new under its new name exactly if it is new. -/
theorem Renames.step (h : Renames P f n m) (ha : P a) (fresh : List α) :
    Renames P f (insertOnto (n, fresh) a).1 (insertOnto (m, fresh.map f) (f a)).1 ∧
      (insertOnto (m, fresh.map f) (f a)).2 = (insertOnto (n, fresh) a).2.map f := by
  rw [insertOnto_eq, insertOnto_eq]
  by_cases hmem : a ∈ n
  · have hmem' := (h.mem_iff hapart ha).2 hmem
    rw [insert_of_mem hmem, insert_of_mem hmem']
    exact ⟨h, rfl⟩
  · have hnot := mt (h.mem_iff hapart ha).1 hmem
    have hnew := insert_of_not_mem hmem
    have hnew' := insert_of_not_mem hnot
    rw [hnew.1, hnew'.1]
    refine ⟨⟨fun b hb => ?_, ?_⟩, rfl⟩
    · rcases mem_insert.1 hb with rfl | hb
      · exact ha
      · exact h.held b hb
    · show (m.grow (f a)).toList = (n.grow a).toList.map f
      rw [hnew.2, hnew'.2, h.toList_eq, List.map_append, List.map_singleton]

theorem Renames.steps {l fresh : List α} (h : Renames P f n m) (hl : ∀ a ∈ l, P a) :
    Renames P f (l.foldl insertOnto (n, fresh)).1
        ((l.map f).foldl insertOnto (m, fresh.map f)).1 ∧
      ((l.map f).foldl insertOnto (m, fresh.map f)).2 =
        (l.foldl insertOnto (n, fresh)).2.map f := by
  induction l generalizing n m fresh with
  | nil => exact ⟨h, rfl⟩
  | cons a l ih =>
      rw [List.forall_mem_cons] at hl
      have hstep := h.step hapart hl.1 fresh
      rw [List.map_cons, List.foldl_cons, List.foldl_cons]
      -- The pair after one element is taken apart, so that the induction applies.
      generalize insertOnto (n, fresh) a = p at hstep
      generalize insertOnto (m, fresh.map f) (f a) = q at hstep
      rcases p with ⟨n', fresh'⟩
      rcases q with ⟨m', fresh''⟩
      obtain rfl : fresh'' = fresh'.map f := hstep.2
      exact ih hstep.1 hl.2

/-- Inserting renamed elements finds the same ones to be new and gives them the same
    numbers. -/
theorem Renames.insertAll {l : List α} (h : Renames P f n m) (hl : ∀ a ∈ l, P a) :
    Renames P f (n.insertAll l).1 (m.insertAll (l.map f)).1 ∧
      (m.insertAll (l.map f)).2 = (n.insertAll l).2.map f :=
  h.steps hapart hl

end Numbering

variable {α : Type u} {β : Type v} {α' : Type w} {β' : Type x}

/-- A visit with other names for its nodes and its edges. -/
def Visit.map (f : α → α') (e : β → β') (v : Visit α β) : Visit α' β' :=
  ⟨f v.node, v.edges.map e, v.fresh.map f⟩

namespace Graph

/-- The second graph is the first one with other names for nodes and edges, as far as
    a walk goes that only meets nodes with a property. -/
structure Renaming (P : α → Prop) (f : α → α') (e : β → β') (g : Graph α β) (g' : Graph α' β') :
    Prop where
  /-- Different nodes get different names. -/
  apart : ∀ a b, P a → P b → f a = f b → a = b
  /-- A walk keeps to the nodes with the property. -/
  closed : ∀ a, P a → ∀ b ∈ g.successors a, P b
  edges_eq : ∀ a, P a → g'.edges (f a) = (g.edges a).map e
  target?_eq : ∀ d, g'.target? (e d) = (g.target? d).map f

variable {P : α → Prop} {f : α → α'} {e : β → β'} {g : Graph α β} {g' : Graph α' β'}

theorem Renaming.successors_eq (h : g.Renaming P f e g') {a : α} (ha : P a) :
    g'.successors (f a) = (g.successors a).map f := by
  unfold successors
  rw [h.edges_eq a ha, List.filterMap_map, List.map_filterMap]
  apply List.filterMap_congr
  intro d _
  exact h.target?_eq d

variable [Ordered α] [Ordered α'] {inside : α → Prop} {inside' : α' → Prop}
  {confined : g.Confines inside} {confined' : g'.Confines inside'}

/-- A walk through the renamed graph, from renamed nodes and with what was discovered
    so far renamed, visits and discovers the same nodes under their new names. -/
theorem Renaming.walk (h : g.Renaming P f e g') {waiting : List α}
    {hw : ∀ a ∈ waiting, inside a} {waiting' : List α'} {hw' : ∀ a ∈ waiting', inside' a}
    {n : Numbering α} {n' : Numbering α'} {visits : List (Visit α β)}
    {visits' : List (Visit α' β')} (hheld : ∀ a ∈ waiting, P a)
    (hwaiting : waiting' = waiting.map f) (hn : n.Renames P f n')
    (hvisits : visits' = visits.map (Visit.map f e)) :
    (g.walk inside confined waiting hw n visits).discovered.Renames P f
        (g'.walk inside' confined' waiting' hw' n' visits').discovered ∧
      (g'.walk inside' confined' waiting' hw' n' visits').visits =
        (g.walk inside confined waiting hw n visits).visits.map (Visit.map f e) := by
  fun_induction Graph.walk g inside confined waiting hw n visits
    generalizing waiting' n' visits' with
  | case1 n visits =>
      subst hwaiting hvisits
      simp only [List.map_nil, Graph.walk]
      exact ⟨hn, List.map_reverse.symm⟩
  | case2 n visits a rest _ edges step _ =>
      rename_i ih
      obtain rfl : waiting' = f a :: rest.map f := hwaiting
      subst hvisits
      rw [List.forall_mem_cons] at hheld
      have hclosed : ∀ b ∈ g.successors a, P b := h.closed a hheld.1
      have hstep := hn.insertAll h.apart hclosed
      rw [← h.successors_eq hheld.1] at hstep
      rw [Graph.walk]
      -- What is newly discovered waits under its new name, in front of the rest.
      apply ih
      · intro b hb
        rcases List.mem_append.1 hb with hb | hb
        · exact hclosed b (Numbering.mem_fresh_insertAll.1 hb).1
        · exact hheld.2 b hb
      · rw [List.map_append]
        exact congrArg (· ++ rest.map f) hstep.2
      · exact hstep.1
      · rw [List.map_cons, Visit.map, ← h.edges_eq a hheld.1]
        exact congrArg (fun fresh => ⟨f a, g'.edges (f a), fresh⟩ :: visits.map (Visit.map f e))
          hstep.2

/-- Exploring the renamed graph from renamed seeds discovers the same nodes in the
    same order and sees the same edges in the same order. -/
theorem Renaming.explore (h : g.Renaming P f e g') {seeds : List α} {hs : ∀ a ∈ seeds, inside a}
    {seeds' : List α'} {hs' : ∀ a ∈ seeds', inside' a} (hheld : ∀ a ∈ seeds, P a)
    (hseeds : seeds' = seeds.map f) :
    (g'.explore inside' confined' seeds' hs').discovered.toList =
        (g.explore inside confined seeds hs).discovered.toList.map f ∧
      (g'.explore inside' confined' seeds' hs').edges =
        (g.explore inside confined seeds hs).edges.map e := by
  subst hseeds
  have hstart := (Numbering.renames_empty P f).insertAll h.apart hheld
  have hwalk : (g.explore inside confined seeds hs).discovered.Renames P f
        (g'.explore inside' confined' (seeds.map f) hs').discovered ∧
      (g'.explore inside' confined' (seeds.map f) hs').visits =
        (g.explore inside confined seeds hs).visits.map (Visit.map f e) :=
    h.walk (fun a ha => hheld a (Numbering.mem_fresh_insertAll.1 ha).1) hstart.2 hstart.1 rfl
  refine ⟨hwalk.1.toList_eq, ?_⟩
  unfold Exploration.edges
  rw [hwalk.2, List.flatMap_map, List.map_flatMap]
  rfl

end Graph

end WordAutomata
