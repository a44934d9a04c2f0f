import WordAutomata.Proofs.Insertions
import WordAutomata.SortedSet.Lemmas

/-!
# Numbers Without Gaps

Renumbering an automaton is a renaming of its states that keeps different ones
apart, so paths stay paths. The numbers that it uses are those below the size of
the numbering, and that is how many states the new automaton has. The start state is
asked for first, and so becomes zero.

## Theorems

* `SortedSet.size_eq_size`: A set and a numbering with the same members have one size.
* `Finite.path_map_iff`: Paths of renamed rules are renamed paths.
* `Dfa.start_renumber`: The start state becomes zero.
* `Dfa.mem_states_renumber`: The states are the numbers below their number.
* `Dfa.path_renumber_iff`: The paths of a renumbered automaton.
-/

universe u v

namespace WordAutomata

theorem SortedSet.nodup_toList {α : Type u} [Ordered α] (s : SortedSet α) : s.toList.Nodup := by
  apply s.ascending.imp
  rintro a b hlt rfl
  have heq : compare a a = .eq := Std.ReflCmp.compare_self
  rw [heq] at hlt
  cases hlt

namespace SortedSet

variable {α : Type u} [Ordered α] {s : SortedSet α} {n : Numbering α}

/-- A set and a numbering with the same members list them in two orders. -/
theorem toList_perm_toList (h : ∀ a, a ∈ s ↔ a ∈ n) : s.toList.Perm n.toList := by
  rw [List.perm_ext_iff_of_nodup s.nodup_toList n.nodup_toList]
  intro a
  rw [← mem_def, h, Numbering.mem_toList]

theorem size_eq_size (h : ∀ a, a ∈ s ↔ a ∈ n) : s.size = n.size := by
  rw [size, (toList_perm_toList h).length_eq, Numbering.length_toList]

end SortedSet

namespace Finite

variable {S : Type u} {T : Type v} {rules : List (Rule S)} {f : S → T} {P : S → Prop}

theorem Path.map {s t : S} {w : List Char} (h : Path rules s w t) :
    Path (rules.map (Rule.map f)) (f s) w (f t) := by
  induction h with
  | refl s => exact .refl (f s)
  | free hr _ ih => exact .free (List.mem_map.2 ⟨_, hr, rfl⟩) ih
  | read hr _ ih => exact .read (List.mem_map.2 ⟨_, hr, rfl⟩) ih

/-- Paths of renamed rules are renamed paths, if the renaming keeps apart what the
    rules can meet. -/
theorem path_map_iff (hends : ∀ r ∈ rules, P r.source ∧ P r.target)
    (hapart : ∀ s t, P s → P t → f s = f t → s = t) {s : S} (hs : P s) {t : T} {w : List Char} :
    Path (rules.map (Rule.map f)) (f s) w t ↔ ∃ t', t = f t' ∧ P t' ∧ Path rules s w t' := by
  constructor
  · intro h
    -- The induction is over paths from any new state, so the start gets a name.
    generalize hstart : f s = start at h
    induction h generalizing s with
    | refl start => exact ⟨s, hstart.symm, hs, .refl s⟩
    | free hr _ ih =>
        rcases List.mem_map.1 hr with ⟨⟨source, symbol, target⟩, hr', heq⟩
        cases heq
        rcases hends _ hr' with ⟨hsource, htarget⟩
        cases hapart s source hs hsource hstart
        rcases ih htarget rfl with ⟨t', ht, hPt, hpath⟩
        exact ⟨t', ht, hPt, .free hr' hpath⟩
    | read hr _ ih =>
        rcases List.mem_map.1 hr with ⟨⟨source, symbol, target⟩, hr', heq⟩
        cases heq
        rcases hends _ hr' with ⟨hsource, htarget⟩
        cases hapart s source hs hsource hstart
        rcases ih htarget rfl with ⟨t', ht, hPt, hpath⟩
        exact ⟨t', ht, hPt, .read hr' hpath⟩
  · rintro ⟨t', rfl, _, hpath⟩
    exact hpath.map

end Finite

namespace Dfa

variable {S : Type u} [Ordered S] {a : Dfa S}

/-- The states that are numbered are those of the automaton. -/
theorem mem_numbering {s : S} : s ∈ a.numbering ↔ s ∈ a.states := by
  rw [numbering, Numbering.mem_insertAll, states, Finite.states, SortedSet.mem_union,
    SortedSet.mem_add, SortedSet.mem_ofList, List.mem_cons, List.mem_append]
  simp only [Numbering.not_mem_empty, false_or, SortedSet.mem_def, or_assoc]

/-- The number of a state is its place. -/
theorem numberOf_eq_iff {n : Numbering S} {s : S} (hs : s ∈ n) {i : StateIndex} :
    numberOf n s = i ↔ n.toList[i.value]? = some s := by
  rcases Numbering.index?_isSome hs with ⟨j, hj⟩
  have hplace := Numbering.index?_eq_some_iff (n := n) (a := s) (i := ⟨i.value⟩)
  rw [← hplace, numberOf, hj, Option.some.injEq]
  constructor
  · rintro rfl
    rfl
  · rintro rfl
    rfl

theorem numberOf_lt {n : Numbering S} {s : S} (hs : s ∈ n) : (numberOf n s).value < n.size := by
  have hplace := (numberOf_eq_iff hs).1 rfl
  rw [← n.length_toList]
  exact (List.getElem?_eq_some_iff.1 hplace).1

/-- A number does not change when more numbers are given out. -/
theorem numberOf_of_prefix {n m : Numbering S} (h : n.toList <+: m.toList) {s : S} (hs : s ∈ n) :
    numberOf m s = numberOf n s := by
  have hm : s ∈ m := Numbering.mem_toList.1 (h.subset (Numbering.mem_toList.2 hs))
  have hlt := numberOf_lt hs
  rw [← n.length_toList] at hlt
  rcases h with ⟨back, hback⟩
  rw [numberOf_eq_iff hm, ← hback, List.getElem?_append_left hlt]
  exact (numberOf_eq_iff hs).1 rfl

theorem rules_renumber (a : Dfa S) : a.renumber.rulebook.rules =
    a.rulebook.rules.map (Finite.Rule.map (numberOf a.numbering)) := by
  unfold renumber
  simp only [Rulebook.rules_ofDistinct]

theorem mem_accepting_renumber {i : StateIndex} :
    i ∈ a.renumber.accepting ↔ ∃ s ∈ a.accepting, numberOf a.numbering s = i := by
  have hmem : i ∈ a.renumber.accepting ↔ i ∈ a.accepting.toList.map (numberOf a.numbering) :=
    SortedSet.mem_ofList
  rw [hmem, List.mem_map]
  rfl

/-- The start state becomes zero. -/
theorem start_renumber (a : Dfa S) : a.renumber.start = ⟨0⟩ := by
  have hstart : a.start ∈ a.numbering :=
    Numbering.mem_insertAll.2 (.inr List.mem_cons_self)
  have hhead := Numbering.head?_insertAll a.start
    (Finite.ends a.rulebook.rules ++ a.accepting.toList)
  rw [List.head?_eq_getElem?] at hhead
  exact (numberOf_eq_iff hstart).2 hhead

theorem mem_states {s : S} : s ∈ a.states ↔
    s = a.start ∨ (∃ r ∈ a.rulebook.rules, s = r.source ∨ s = r.target) ∨ s ∈ a.accepting :=
  Finite.mem_states

/-- The states of a renumbered automaton are the numbers of the states. -/
theorem mem_states_renumber_iff {i : StateIndex} :
    i ∈ a.renumber.states ↔ ∃ s ∈ a.states, numberOf a.numbering s = i := by
  simp only [mem_states, rules_renumber, mem_accepting_renumber, List.mem_map]
  constructor
  · rintro (rfl | ⟨_, ⟨r, hr, rfl⟩, rfl | rfl⟩ | ⟨s, hs, rfl⟩)
    · exact ⟨a.start, .inl rfl, rfl⟩
    · exact ⟨r.source, .inr (.inl ⟨r, hr, .inl rfl⟩), rfl⟩
    · exact ⟨r.target, .inr (.inl ⟨r, hr, .inr rfl⟩), rfl⟩
    · exact ⟨s, .inr (.inr hs), rfl⟩
  · rintro ⟨s, rfl | ⟨r, hr, rfl | rfl⟩ | hs, rfl⟩
    · exact .inl rfl
    · exact .inr (.inl ⟨_, ⟨r, hr, rfl⟩, .inl rfl⟩)
    · exact .inr (.inl ⟨_, ⟨r, hr, rfl⟩, .inr rfl⟩)
    · exact .inr (.inr ⟨s, hs, rfl⟩)

/-- They are the numbers below the size of the numbering. -/
theorem mem_states_renumber {i : StateIndex} :
    i ∈ a.renumber.states ↔ i.value < a.numbering.size := by
  rw [mem_states_renumber_iff]
  constructor
  · rintro ⟨s, hs, rfl⟩
    exact numberOf_lt (mem_numbering.2 hs)
  · intro hlt
    rw [← Numbering.length_toList] at hlt
    have hplace := List.getElem?_eq_getElem hlt
    have hmem : a.numbering.toList[i.value] ∈ a.numbering :=
      Numbering.mem_toList.1 (List.getElem_mem hlt)
    exact ⟨_, mem_numbering.1 hmem, (numberOf_eq_iff hmem).2 hplace⟩

/-- There are as many states as there are numbers. -/
theorem size_states_renumber (a : Dfa S) : a.renumber.states.size = a.numbering.size := by
  have hinjective : Function.Injective (Index.mk : Nat → StateIndex) :=
    fun _ _ h => congrArg Index.value h
  have hperm : a.renumber.states.toList.Perm ((List.range a.numbering.size).map Index.mk) := by
    rw [List.perm_ext_iff_of_nodup a.renumber.states.nodup_toList
      (List.nodup_range.map hinjective)]
    intro i
    rw [← SortedSet.mem_def, mem_states_renumber, List.mem_map]
    constructor
    · intro hlt
      exact ⟨i.value, List.mem_range.2 hlt, rfl⟩
    · rintro ⟨k, hk, rfl⟩
      exact List.mem_range.1 hk
  rw [SortedSet.size, hperm.length_eq, List.length_map, List.length_range]

/-- The paths of a renumbered automaton are the paths of the automaton, with
    numbers for states. -/
theorem path_renumber_iff {s : S} (hs : s ∈ a.states) {i : StateIndex} {w : List Char} :
    Finite.Path a.renumber.rulebook.rules (numberOf a.numbering s) w i ↔
      ∃ t, i = numberOf a.numbering t ∧ t ∈ a.states ∧ Finite.Path a.rulebook.rules s w t := by
  rw [rules_renumber]
  apply Finite.path_map_iff (P := fun s => s ∈ a.states) _ _ hs
  · intro r hr
    exact ⟨Finite.source_mem_states hr, Finite.target_mem_states hr⟩
  · intro s t hs ht
    exact numberOf_injective (mem_numbering.2 hs) (mem_numbering.2 ht)

end Dfa

end WordAutomata
