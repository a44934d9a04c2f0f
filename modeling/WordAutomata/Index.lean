import WordAutomata.Ordered

/-!
# Tagged Indices

A natural number that says what it counts. The tag is a type that occurs in
no value, so a state of an automaton and a place in a numbering have
different types although both are numbers, and one cannot be passed for the
other.

## Main definitions

* `Index`: A number with a tag.
* `StateIndex`: The number of a state.
* `ElementIndex`: The place of an element in a numbering.
-/

namespace WordAutomata

/-- A natural number that counts the things named by the tag. -/
structure Index (tag : Type) where
  /-- The number itself. -/
  value : Nat

namespace Index

variable {tag : Type}

theorem eq_of_value_eq {i j : Index tag} (h : i.value = j.value) : i = j := by
  cases i; cases j; simp_all

/-- Indices are compared as numbers, whatever their tag is. -/
instance : Ordered (Index tag) := .pullback value fun _ _ => eq_of_value_eq

/-- The index that is first in line. -/
def zero : Index tag := ⟨0⟩

end Index

/-- What the indices of states count. -/
inductive StateTag

/-- The number of a state, for states that are generated or read from a file. -/
abbrev StateIndex := Index StateTag

/-- What the indices of a numbering count. -/
inductive ElementTag

/-- The place of an element in a numbering. -/
abbrev ElementIndex := Index ElementTag

end WordAutomata
