import Std.Data.TreeMap

/-!
# Ordered Types

States, characters and whole sets of states are kept in sorted sets and used
as keys of search trees. Both need a comparison that is a total order and
that calls two things equal only when they are the same thing. `Ordered`
bundles the three demands, so that a signature names one class and no type
can be given two orders by accident.

Equality on an ordered type is decided by its comparison. That makes a
separate test for equality unnecessary: whatever the sorted containers take
for one element, the rules take for one state.

## Main definitions

* `Ordered`: A comparison that is a total order and agrees with equality.
* `Ordered.pullback`: The order of a type that embeds into an ordered one.

## Theorems

* `Ordered.isLE_or_isLE`: Of two elements one is at most the other.
-/

universe u v

namespace WordAutomata

/-- A type whose comparison is a total order under which only equal elements
    compare as equal. -/
class Ordered (α : Type u) extends Ord α, Std.TransOrd α, Std.LawfulEqOrd α

namespace Ordered

instance : Ordered Nat := {}

instance : Ordered Int := {}

instance : Ordered Char := {}

instance : Ordered String := {}

instance {α : Type u} [Ordered α] : Ordered (Option α) := {}

instance {α : Type u} [Ordered α] : Ordered (List α) := {}

/-- Equality is decided by comparing. -/
instance (priority := low) {α : Type u} [Ordered α] : DecidableEq α :=
  fun _ _ => decidable_of_iff _ Std.compare_eq_iff_eq

/-- Pairs are compared by their first components, and where these are equal
    by their second ones. -/
instance {α : Type u} {β : Type v} [Ordered α] [Ordered β] : Ordered (α × β) where
  compare x y := (compare x.1 y.1).then (compare x.2 y.2)
  eq_swap {x y} := by
    rw [Ordering.swap_then, ← Std.OrientedCmp.eq_swap, ← Std.OrientedCmp.eq_swap]
  isLE_trans {x y z} hxy hyz := by
    have h₁ := @Std.TransCmp.isLE_trans α compare _ x.1 y.1 z.1
    have h₂ := @Std.TransCmp.isLE_trans β compare _ x.2 y.2 z.2
    have h₃ := @Std.TransCmp.lt_of_lt_of_isLE α compare _ x.1 y.1 z.1
    have h₄ := @Std.TransCmp.lt_of_isLE_of_lt α compare _ x.1 y.1 z.1
    cases hx : compare x.1 y.1 <;> cases hy : compare y.1 z.1 <;>
      simp_all [Ordering.then]
  compare_self := by simp
  eq_of_compare h := by
    rw [Ordering.then_eq_eq] at h
    exact Prod.ext (Std.LawfulEqCmp.eq_of_compare h.1) (Std.LawfulEqCmp.eq_of_compare h.2)

/-- The order of a type that embeds into an ordered one: elements are compared
    by their images. -/
@[reducible]
def pullback {α : Type u} {β : Type v} [Ordered β] (key : α → β)
    (key_injective : ∀ a b, key a = key b → a = b) : Ordered α where
  compare a b := compare (key a) (key b)
  eq_swap := Std.OrientedCmp.eq_swap
  isLE_trans := Std.TransCmp.isLE_trans
  compare_self := Std.ReflCmp.compare_self
  eq_of_compare h := key_injective _ _ (Std.LawfulEqCmp.eq_of_compare h)

/-- Of two elements one is at most the other. -/
theorem isLE_or_isLE {α : Type u} [Ordered α] (a b : α) :
    (compare a b).isLE || (compare b a).isLE := by
  have h : compare b a = (compare a b).swap := Std.OrientedCmp.eq_swap
  rw [h]
  cases compare a b <;> rfl

end Ordered

end WordAutomata
