import WordAutomata.Dfa.Basic

/-!
# Renumbering

The states of an automaton replaced by numbers, in the order in which they
are first met: the start state, then the ends of the rules in the order of
the rules, then the accept states in their own order. The start state becomes
zero and no number is left out.

Different states get different numbers, so the rules stay deterministic.

## Main definitions

* `Dfa.numbering`: The states of an automaton with their numbers.
* `Dfa.renumber`: The automaton on these numbers.

## Theorems

* `Numbering.index?_injective`: Elements with the same number are the same.
* `Dfa.nodup_place_map`: Renaming states apart keeps rules in places of their
  own.
-/

universe u v

namespace WordAutomata

namespace Numbering

variable {α : Type u} [Ordered α]

theorem index?_injective {n : Numbering α} {a b : α} {i : ElementIndex}
    (ha : n.index? a = some i) (hb : n.index? b = some i) : a = b := by
  simp only [index?, Option.map_eq_some_iff] at ha hb
  obtain ⟨x, hx, rfl⟩ := ha
  obtain ⟨y, hy, h⟩ := hb
  obtain rfl : y = x := congrArg Index.value h
  rw [n.inverse] at hx hy
  exact Option.some.inj (hx.symm.trans hy)

theorem index?_isSome {n : Numbering α} {a : α} (h : a ∈ n) : ∃ i, n.index? a = some i := by
  rw [mem_def, contains, Option.isSome_iff_exists] at h
  obtain ⟨i, hi⟩ := h
  exact ⟨⟨i⟩, by simp [index?, hi]⟩

end Numbering

namespace Dfa

theorem nodup_place_map {S : Type u} {T : Type v} {rules : List (Finite.Rule S)} {f : S → T}
    (distinct : (rules.map Rulebook.place).Nodup)
    (apart : ∀ r ∈ rules, ∀ s ∈ rules, f r.source = f s.source → r.source = s.source) :
    ((rules.map (Finite.Rule.map f)).map Rulebook.place).Nodup := by
  unfold List.Nodup at distinct ⊢
  rw [List.pairwise_map] at distinct
  rw [List.map_map, List.pairwise_map]
  refine distinct.imp_of_mem fun {r s} hr hs hne h => hne ?_
  simp only [Function.comp_apply, Rulebook.place, Finite.Rule.map, Prod.mk.injEq] at h ⊢
  exact ⟨apart r hr s hs h.1, h.2⟩

variable {S : Type u} [Ordered S]

/-- The states of the automaton, numbered in the order in which they are met. -/
def numbering (a : Dfa S) : Numbering S :=
  (Numbering.empty.insertAll
    (a.start :: (Finite.ends a.rulebook.rules ++ a.accepting.toList))).1

/-- The number of a state. What is no state of the automaton gets the first
    number that is not in use. -/
def numberOf (n : Numbering S) (state : S) : StateIndex :=
  match n.index? state with
  | some i => ⟨i.value⟩
  | none => ⟨n.size⟩

theorem numberOf_injective {n : Numbering S} {s t : S} (hs : s ∈ n) (ht : t ∈ n)
    (h : numberOf n s = numberOf n t) : s = t := by
  obtain ⟨i, hi⟩ := Numbering.index?_isSome hs
  obtain ⟨j, hj⟩ := Numbering.index?_isSome ht
  simp only [numberOf, hi, hj, Index.mk.injEq] at h
  rw [Index.eq_of_value_eq h] at hi
  exact Numbering.index?_injective hi hj

theorem source_mem_numbering {a : Dfa S} {r : Finite.Rule S} (h : r ∈ a.rulebook.rules) :
    r.source ∈ a.numbering := by
  refine Numbering.mem_insertAll.2 (.inr (List.mem_cons_of_mem _ (List.mem_append_left _ ?_)))
  exact List.mem_flatMap.2 ⟨r, h, List.mem_cons_self⟩

/-- The automaton with its states numbered. -/
def renumber (a : Dfa S) : Dfa StateIndex :=
  let n := a.numbering
  { start := numberOf n a.start
    accepting := .ofList (a.accepting.toList.map (numberOf n))
    rulebook := .ofDistinct (a.rulebook.rules.map (Finite.Rule.map (numberOf n))) <|
      nodup_place_map a.rulebook.distinct fun _ hr _ hs =>
        numberOf_injective (source_mem_numbering hr) (source_mem_numbering hs) }

end Dfa

end WordAutomata
