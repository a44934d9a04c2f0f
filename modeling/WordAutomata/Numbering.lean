import WordAutomata.Index

/-!
# Numberings

A set that gives each element a number, in the order of first insertion: the
numbers in use are always 0 up to the size, and none is ever given twice or
changed. Renumbering an automaton and remembering which sets of states were
discovered are both a walk that asks a numbering for each thing it meets.

The elements are kept twice, by number in an array and by value in a search
tree. The type holds the proof that each is the inverse of the other.

## Main definitions

* `Numbering`: Elements with their numbers.
* `Numbering.insert`: The number of an element, a fresh one if it is new.
* `Numbering.index?`, `Numbering.get?`: Number of an element, element of a
  number.
* `Numbering.insertAll`: Inserting the elements of a list one by one.

## Theorems

* `Numbering.mem_toList`: The elements listed are those inserted.
* `Numbering.isNew_insert`, `mem_insert`: What inserting says and does.
* `Numbering.mem_insertAll`, `mem_fresh_insertAll`: The same for a whole list.
-/

universe u

namespace WordAutomata

/-- A set whose elements are numbered in the order of their first insertion. -/
structure Numbering (α : Type u) [Ordered α] where
  /-- The elements, each at its number. -/
  elements : Array α
  /-- The numbers of the elements. -/
  numbers : Std.TreeMap α Nat
  inverse : ∀ (a : α) (i : Nat), numbers[a]? = some i ↔ elements[i]? = some a

namespace Numbering

variable {α : Type u} [Ordered α]

/-- The numbering without elements. -/
def empty : Numbering α := ⟨#[], ∅, by simp⟩

instance : EmptyCollection (Numbering α) := ⟨empty⟩

instance : Inhabited (Numbering α) := ⟨empty⟩

/-- The number of elements, which is also the next number to be given. -/
def size (n : Numbering α) : Nat := n.elements.size

def isEmpty (n : Numbering α) : Bool := n.elements.isEmpty

/-- The number of an element, if it has been inserted. -/
def index? (n : Numbering α) (a : α) : Option ElementIndex := n.numbers[a]?.map Index.mk

/-- The element that has a number, if the number is in use. -/
def get? (n : Numbering α) (i : ElementIndex) : Option α := n.elements[i.value]?

/-- Decides whether an element has been inserted. -/
def contains (n : Numbering α) (a : α) : Bool := (n.numbers[a]?).isSome

/-- The elements in the order of their numbers. -/
def toList (n : Numbering α) : List α := n.elements.toList

/-- The elements with their numbers, in order. -/
def entries (n : Numbering α) : List (ElementIndex × α) :=
  n.toList.zipIdx.map fun (a, i) => (⟨i⟩, a)

/-- Array and search tree remain inverse to each other when an element that has
    no number gets the next one. -/
theorem inverse_push {elements : Array α} {numbers : Std.TreeMap α Nat} {a : α}
    (inverse : ∀ (b : α) (i : Nat), numbers[b]? = some i ↔ elements[i]? = some b)
    (fresh : numbers[a]? = none) (b : α) (i : Nat) :
    (numbers.insert a elements.size)[b]? = some i ↔ (elements.push a)[i]? = some b := by
  have hi := inverse b i
  have hold := inverse a i
  rw [Std.TreeMap.getElem?_insert, Array.getElem?_push]
  by_cases hab : a = b
  · -- The new element had no number, so the old array does not hold it.
    subst hab
    simp only [Std.ReflCmp.compare_self, ↓reduceIte, Option.some.injEq]
    by_cases hs : i = elements.size
    · simp [hs]
    · simp only [fresh, reduceCtorEq, false_iff] at hold
      simp [hs, hold, eq_comm]
  · have hne : compare a b ≠ .eq := fun h => hab (Std.LawfulEqCmp.eq_of_compare h)
    by_cases hs : i = elements.size
    · subst hs
      simp only [hne, ↓reduceIte, Option.some.injEq, hab, iff_false]
      intro h
      simp [hi] at h
    · simp [hne, hs, hi]

/-- Gives the next number to an element that has none yet. The fields are taken
    apart first, so that nothing else holds the array when it grows. -/
def append : (n : Numbering α) → (a : α) → n.numbers[a]? = none → Numbering α
  | ⟨elements, numbers, inverse⟩, a, fresh =>
    let next := elements.size
    ⟨elements.push a, numbers.insert a next, inverse_push inverse fresh⟩

/-- The number of an element, whether the element is new, and the numbering
    with it. A new element gets the least number that is not in use. -/
def insert (n : Numbering α) (a : α) : ElementIndex × Bool × Numbering α :=
  match h : n.numbers[a]? with
  | some i => (⟨i⟩, false, n)
  | none => (⟨n.size⟩, true, n.append a h)

instance : Membership α (Numbering α) := ⟨fun n a => n.contains a = true⟩

instance {n : Numbering α} {a : α} : Decidable (a ∈ n) :=
  inferInstanceAs (Decidable (n.contains a = true))

theorem mem_def {n : Numbering α} {a : α} : a ∈ n ↔ n.contains a = true := Iff.rfl

@[simp]
theorem not_mem_empty {a : α} : ¬ a ∈ (empty : Numbering α) := by
  simp [mem_def, contains, empty]

theorem mem_append {n : Numbering α} {a b : α} (h : n.numbers[a]? = none) :
    b ∈ n.append a h ↔ b = a ∨ b ∈ n := by
  simp only [mem_def, contains, append, Std.TreeMap.getElem?_insert]
  split
  · rename_i hab
    simp [Std.LawfulEqCmp.eq_of_compare hab]
  · rename_i hab
    have : b ≠ a := by
      rintro rfl
      simp at hab
    simp [this]

theorem mem_toList {n : Numbering α} {a : α} : a ∈ n.toList ↔ a ∈ n := by
  simp only [toList, Array.mem_toList_iff, Array.mem_iff_getElem?, ← n.inverse, mem_def,
    contains, Option.isSome_iff_exists]

/-- An element is new exactly if it was not in the numbering. -/
theorem isNew_insert {n : Numbering α} {a : α} : (n.insert a).2.1 = true ↔ ¬ a ∈ n := by
  unfold insert
  split <;> simp_all [mem_def, contains]

theorem mem_insert {n : Numbering α} {a b : α} : b ∈ (n.insert a).2.2 ↔ b = a ∨ b ∈ n := by
  unfold insert
  split
  · rename_i i h
    constructor
    · exact Or.inr
    · rintro (rfl | hb)
      · simp [mem_def, contains, h]
      · exact hb
  · rename_i h
    exact mem_append h

/-- Inserts one more element, and puts it in front of the new ones if it is new. -/
def insertOnto : Numbering α × List α → α → Numbering α × List α
  | (n, fresh), a =>
    match n.insert a with
    | (_, isNew, n) => (n, if isNew then a :: fresh else fresh)

/-- Inserts the elements of a list one by one. Besides the numbering this
    returns the elements that were new, the last one first. -/
def insertAll (n : Numbering α) (l : List α) : Numbering α × List α :=
  l.foldl insertOnto (n, [])

theorem mem_foldl_insertOnto {l fresh : List α} {n : Numbering α} {b : α} :
    b ∈ (l.foldl insertOnto (n, fresh)).1 ↔ b ∈ n ∨ b ∈ l := by
  induction l generalizing n fresh with
  | nil => simp
  | cons a l ih =>
    rw [List.foldl_cons, insertOnto, ih, mem_insert, List.mem_cons]
    grind

theorem mem_fresh_foldl_insertOnto {l fresh : List α} {n : Numbering α} {b : α} :
    b ∈ (l.foldl insertOnto (n, fresh)).2 ↔ b ∈ fresh ∨ b ∈ l ∧ ¬ b ∈ n := by
  induction l generalizing n fresh with
  | nil => simp
  | cons a l ih =>
    rw [List.foldl_cons, insertOnto, ih, mem_insert, List.mem_cons]
    have hnew := isNew_insert (n := n) (a := a)
    cases hb : (n.insert a).2.1 <;> simp only [hb] at hnew ⊢ <;> grind

theorem mem_insertAll {n : Numbering α} {l : List α} {b : α} :
    b ∈ (n.insertAll l).1 ↔ b ∈ n ∨ b ∈ l :=
  mem_foldl_insertOnto

/-- The elements reported as new are those of the list that were not in the
    numbering. -/
theorem mem_fresh_insertAll {n : Numbering α} {l : List α} {b : α} :
    b ∈ (n.insertAll l).2 ↔ b ∈ l ∧ ¬ b ∈ n := by
  simp [insertAll, mem_fresh_foldl_insertOnto]

theorem nodup_foldl_insertOnto {l fresh : List α} {n : Numbering α} (hf : fresh.Nodup)
    (hm : ∀ a ∈ fresh, a ∈ n) : (l.foldl insertOnto (n, fresh)).2.Nodup := by
  induction l generalizing n fresh with
  | nil => exact hf
  | cons a l ih =>
    have hnew := isNew_insert (n := n) (a := a)
    rw [List.foldl_cons, insertOnto]
    cases hb : (n.insert a).2.1 <;> simp only [hb] at hnew ⊢
    · exact ih hf fun b hb => mem_insert.2 (.inr (hm b hb))
    · refine ih (List.nodup_cons.2 ⟨fun h => hnew.1 trivial (hm a h), hf⟩) fun b hb => ?_
      rcases List.mem_cons.1 hb with rfl | hb
      · exact mem_insert.2 (.inl rfl)
      · exact mem_insert.2 (.inr (hm b hb))

/-- No element is reported as new twice. -/
theorem nodup_fresh_insertAll {n : Numbering α} {l : List α} : (n.insertAll l).2.Nodup :=
  nodup_foldl_insertOnto .nil (by simp)

end Numbering

end WordAutomata
