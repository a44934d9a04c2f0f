import WordAutomata.Dfa.Renumber
import WordAutomata.Exploration
import Mathlib.Data.List.Induction
import Mathlib.Data.List.Nodup

/-!
# Numbers in the Order of Insertion

A numbering keeps its elements twice, by number and by value, and the type says that the
one is the inverse of the other. It does not say which numbers there are. That comes from
how numbers are given: the next one to an element that is new, and none to one that is
there already. So the elements stand behind each other in the order in which they were
first inserted, no number is left out, and what is inserted later goes to the end and
changes nothing that is in front of it.

All of this is said by one equation. The elements of a numbering are those of the list
that was inserted, each at its first place in the list, where any test for equality may be
used to drop the later ones. A walk through a graph only ever inserts, so the equation
also says what a walk discovers and in which order.

## Main definitions

* `Numbering.grow`: The numbering after an element was asked for.
* `Numbering.inserted`: The numbering of the elements of a list.

## Theorems

* `Numbering.insert_of_index?`, `insert_of_not_mem`: All that inserting can do.
* `Numbering.toList_prefix_grow`: Inserting more changes no number.
* `Numbering.toList_inserted`: The elements in the order of first insertion.
* `Numbering.inserted_numbers_in_order`: What holds of the numbers after any insertions.
* `Graph.discovered_explore`: What a walk discovers is what it comes upon.
-/

universe u v

namespace WordAutomata

namespace Numbering

variable {α : Type u} [Ordered α] {n : Numbering α} {a : α} {i : ElementIndex}

/-! ## One insertion -/

/-- The numbering after an element was asked for. -/
def grow (n : Numbering α) (a : α) : Numbering α := (n.insert a).2.2

theorem length_toList (n : Numbering α) : n.toList.length = n.size := Array.length_toList

/-- An element stands at the place that is its number. -/
theorem get?_eq_getElem? (n : Numbering α) (i : ElementIndex) : n.get? i = n.toList[i.value]? :=
  Array.getElem?_toList.symm

/-- An element has the number of its place. -/
theorem index?_eq_some_iff : n.index? a = some i ↔ n.toList[i.value]? = some a := by
  have hinverse := n.inverse a i.value
  rw [index?, Option.map_eq_some_iff, toList, Array.getElem?_toList, ← hinverse]
  constructor
  · rintro ⟨j, hj, rfl⟩
    exact hj
  · intro hi
    exact ⟨i.value, hi, rfl⟩

theorem index?_eq_none_iff : n.index? a = none ↔ ¬ a ∈ n := by
  rw [mem_def, contains, Bool.not_eq_true, Option.isSome_eq_false_iff,
    Option.isNone_iff_eq_none, index?, Option.map_eq_none_iff]

/-- No element is there twice, since each has one number. -/
theorem nodup_toList (n : Numbering α) : n.toList.Nodup := by
  rw [List.nodup_iff_getElem?_ne_getElem?]
  intro i j hij hj heq
  -- The element at both places would have both as its number.
  have hget := List.getElem?_eq_getElem hj
  have hi := index?_eq_some_iff (n := n) (i := ⟨i⟩) (a := n.toList[j])
  have hj' := index?_eq_some_iff (n := n) (i := ⟨j⟩) (a := n.toList[j])
  rw [heq] at hi
  have hsame := (hi.2 hget).symm.trans (hj'.2 hget)
  rw [Option.some.injEq, Index.mk.injEq] at hsame
  omega

/-- Inserting an element that has a number tells the number and changes nothing. -/
theorem insert_of_index? (h : n.index? a = some i) : n.insert a = (i, false, n) := by
  rw [index?, Option.map_eq_some_iff] at h
  rcases h with ⟨j, hj, rfl⟩
  unfold insert
  split
  · rename_i k hk
    rw [hj, Option.some.injEq] at hk
    rw [hk]
  · rename_i hnone
    rw [hj] at hnone
    cases hnone

theorem insert_of_mem (h : a ∈ n) : (n.insert a).2 = (false, n) := by
  rcases index?_isSome h with ⟨i, hi⟩
  rw [insert_of_index? hi]

/-- An element without a number gets the next one and stands behind the others. -/
theorem insert_of_not_mem (h : ¬ a ∈ n) :
    n.insert a = (⟨n.size⟩, true, n.grow a) ∧ (n.grow a).toList = n.toList ++ [a] := by
  rw [← index?_eq_none_iff, index?, Option.map_eq_none_iff] at h
  unfold grow insert
  split
  · rename_i j hsome
    rw [h] at hsome
    cases hsome
  · exact ⟨rfl, Array.toList_push⟩

theorem toList_grow (n : Numbering α) (a : α) :
    (n.grow a).toList = if a ∈ n then n.toList else n.toList ++ [a] := by
  split
  · rename_i ha
    rw [grow, insert_of_mem ha]
  · rename_i ha
    exact (insert_of_not_mem ha).2

/-- What inserting says is the number of the element from then on. -/
theorem index?_grow (n : Numbering α) (a : α) : (n.grow a).index? a = some (n.insert a).1 := by
  by_cases ha : a ∈ n
  · rcases index?_isSome ha with ⟨i, hi⟩
    rw [grow, insert_of_index? hi]
    exact hi
  · have hnew := insert_of_not_mem ha
    rw [index?_eq_some_iff, hnew.2, hnew.1, ← length_toList]
    exact List.getElem?_concat_length

/-! ## Many insertions -/

/-- Inserting changes no number: it adds elements behind the others at most. -/
theorem toList_prefix_grow (l : List α) : n.toList <+: (l.foldl grow n).toList := by
  induction l generalizing n with
  | nil => exact List.prefix_refl n.toList
  | cons a l ih =>
      have hstep : n.toList <+: (n.grow a).toList := by
        rw [toList_grow]
        split
        · exact List.prefix_refl n.toList
        · exact List.prefix_append n.toList [a]
      exact hstep.trans ih

theorem fst_foldl_insertOnto (l fresh : List α) :
    (l.foldl insertOnto (n, fresh)).1 = l.foldl grow n := by
  induction l generalizing n fresh with
  | nil => rfl
  | cons a l ih => exact ih _

theorem fst_insertAll (n : Numbering α) (l : List α) : (n.insertAll l).1 = l.foldl grow n :=
  fst_foldl_insertOnto l []

/-- The numbering of the elements of a list, which are inserted one after the other. -/
def inserted (l : List α) : Numbering α := l.foldl grow empty

theorem inserted_append (l m : List α) : inserted (l ++ m) = m.foldl grow (inserted l) :=
  List.foldl_append

/-- The elements stand in the order in which they were first inserted. A later place is
    dropped by whatever test finds equal elements. -/
theorem toList_inserted [BEq α] [LawfulBEq α] (l : List α) :
    (inserted l).toList = l.eraseDups := by
  induction l using List.reverseRecOn with
  | nil => rfl
  | append_singleton l a ih =>
      have hmem : a ∈ inserted l ↔ a ∈ l := by
        rw [← mem_toList, ih, List.mem_eraseDups]
      have hstep : (inserted (l ++ [a])).toList = ((inserted l).grow a).toList := by
        rw [inserted_append]
        rfl
      -- One more element is erased exactly if it has been there before.
      rw [hstep, toList_grow, List.eraseDups_append, ih, List.cons_removeAll, List.nil_removeAll]
      by_cases ha : a ∈ l
      · rw [if_pos (hmem.2 ha), List.contains_iff_mem.2 ha]
        exact (List.append_nil _).symm
      · have hnot : l.contains a = false := by
          rw [← Bool.not_eq_true, List.contains_iff_mem]
          exact ha
        rw [if_neg (mt hmem.1 ha), hnot]
        rfl

theorem mem_inserted {l : List α} : a ∈ inserted l ↔ a ∈ l := by
  rw [← mem_toList, toList_inserted, List.mem_eraseDups]

/-- The element that is inserted first is the first one. -/
theorem head?_insertAll (a : α) (l : List α) :
    (empty.insertAll (a :: l)).1.toList.head? = some a := by
  have hfirst : (empty.insertAll (a :: l)).1 = inserted (a :: l) := fst_insertAll empty (a :: l)
  rw [hfirst, toList_inserted, List.eraseDups_cons]
  rfl

theorem inserted_prefix (l more : List α) :
    (inserted l).toList <+: (inserted (l ++ more)).toList := by
  rw [inserted_append]
  exact toList_prefix_grow more

/-- The entries are numbered without a gap. -/
theorem fst_entries (n : Numbering α) :
    n.entries.map Prod.fst = (List.range n.size).map Index.mk := by
  have hplaces : n.toList.zipIdx.map Prod.snd = List.range n.size := by
    rw [List.zipIdx_map_snd, length_toList, List.range_eq_range']
  rw [← hplaces, entries, List.map_map, List.map_map]
  rfl

theorem snd_entries (n : Numbering α) : n.entries.map Prod.snd = n.toList := by
  rw [entries, List.map_map]
  exact List.zipIdx_map_fst 0 n.toList

theorem exists_index?_iff : (∃ a, n.index? a = some i) ↔ i.value < n.size := by
  simp only [index?_eq_some_iff, ← Option.isSome_iff_exists, isSome_getElem?, length_toList]

/-- Whatever is inserted, looking up a number and looking up an element undo each other.
    The numbers in use are those below the size, and the elements have them in the order of
    their first insertion. Inserting an element tells the number that it has, or gives it
    the next one if it is new. What is inserted later changes no number of an element and
    no element of a number. -/
theorem inserted_numbers_in_order (l more : List α) :
    (∀ i a, (inserted l).get? i = some a ↔ (inserted l).index? a = some i) ∧
    (∀ i, (∃ a, (inserted l).index? a = some i) ↔ i.value < (inserted l).size) ∧
    (inserted l).toList = l.eraseDups ∧
    (inserted l).entries.map Prod.fst = (List.range (inserted l).size).map Index.mk ∧
    (inserted l).entries.map Prod.snd = l.eraseDups ∧
    (∀ i, (inserted l).get? i = l.eraseDups[i.value]?) ∧
    (∀ a ∈ l, ∃ i, (inserted l).index? a = some i ∧
      (inserted l).insert a = (i, false, inserted l)) ∧
    (∀ a, a ∉ l → (inserted l).index? a = none ∧
      (inserted l).insert a = (⟨(inserted l).size⟩, true, inserted (l ++ [a]))) ∧
    (∀ a i, (inserted l).index? a = some i → (inserted (l ++ more)).index? a = some i) ∧
    (∀ i a, (inserted l).get? i = some a → (inserted (l ++ more)).get? i = some a) := by
  -- The list of the elements only grows at its end, so every place keeps its element.
  have hlater : ∀ a (i : ElementIndex), (inserted l).toList[i.value]? = some a →
      (inserted (l ++ more)).toList[i.value]? = some a := by
    intro a i hi
    have hlt := (List.getElem?_eq_some_iff.1 hi).1
    rcases inserted_prefix l more with ⟨back, hback⟩
    rw [← hback, List.getElem?_append_left hlt]
    exact hi
  refine ⟨fun i a => ?_, fun i => exists_index?_iff, toList_inserted l, fst_entries _, ?_,
    fun i => ?_, fun a ha => ?_, fun a ha => ?_, fun a i hi => ?_, fun i a hi => ?_⟩
  · rw [get?_eq_getElem?, index?_eq_some_iff]
  · rw [snd_entries, toList_inserted]
  · rw [get?_eq_getElem?, toList_inserted]
  · rcases index?_isSome (mem_inserted.2 ha) with ⟨i, hi⟩
    exact ⟨i, hi, insert_of_index? hi⟩
  · have hnot := mt mem_inserted.1 ha
    rw [inserted_append]
    exact ⟨index?_eq_none_iff.2 hnot, (insert_of_not_mem hnot).1⟩
  · exact index?_eq_some_iff.2 (hlater a i (index?_eq_some_iff.1 hi))
  · rw [get?_eq_getElem?] at hi ⊢
    exact hlater a i hi

/-- Elements that come again keep their numbers. -/
example : (inserted [3, 1, 3, 2, 1]).toList = [3, 1, 2] := by cbv

end Numbering

/-! ## Walks -/

namespace Graph

variable {α : Type u} {β : Type v} [Ordered α] {g : Graph α β} {inside : α → Prop}
  {confined : g.Confines inside} {seeds : List α}

theorem discovered_walk {waiting : List α} {hw : ∀ a ∈ waiting, inside a} {n : Numbering α}
    {visits : List (Visit α β)}
    (h : n = .inserted (seeds ++ visits.reverse.flatMap fun v => g.successors v.node)) :
    let walk := g.walk inside confined waiting hw n visits
    walk.discovered = .inserted (seeds ++ walk.visits.flatMap fun v => g.successors v.node) := by
  fun_induction walk g inside confined waiting hw n visits with
  | case1 n visits => exact h
  | case2 n visits a rest hw edges step _ _ ih =>
      apply ih
      -- The visit adds what the edges of its node lead to, behind all the rest.
      rw [List.reverse_cons, List.flatMap_append, List.flatMap_singleton, ← List.append_assoc,
        Numbering.inserted_append, ← h]
      exact Numbering.fst_insertAll n (g.successors a)

/-- What a walk discovers are its seeds and what it comes upon from there, each where it
    is met for the first time. -/
theorem discovered_explore {hs : ∀ a ∈ seeds, inside a} :
    (g.explore inside confined seeds hs).discovered = .inserted (seeds ++
      (g.explore inside confined seeds hs).visits.flatMap fun v => g.successors v.node) := by
  apply discovered_walk
  rw [List.reverse_nil, List.flatMap_nil, List.append_nil]
  exact Numbering.fst_insertAll .empty seeds

end Graph

end WordAutomata
