import WordAutomata.Describe

/-!
# State Names

States as people name them: by a number, or by a word. Numbers come before
words.

## Main definitions

* `StateName`: A number or a word.
* `StateName.order`: The order of names.

## Theorems

* `StateName.order_eq`: It compares what `StateName.key` makes of the names.
-/

namespace WordAutomata

/-- The name of a state. -/
inductive StateName where
  | number (n : Int)
  | word (s : String)

namespace StateName

/-- What names are compared by: numbers before words, numbers by value, words
    by code points. -/
def key : StateName → Nat × Int × String
  | number n => (0, n, "")
  | word s => (1, 0, s)

theorem key_injective {a b : StateName} (h : a.key = b.key) : a = b := by
  cases a <;> cases b <;> simp_all [key]

/-- Compares two names by their keys, without making the keys. -/
def order : StateName → StateName → Ordering
  | number m, number n => compare m n
  | number _, word _ => .lt
  | word _, number _ => .gt
  | word s, word t => compare s t

theorem order_eq (a b : StateName) : order a b = compare a.key b.key := by
  cases a with
  | number m => cases b with
    | number n =>
        have hkeys : compare (number m).key (number n).key = (compare m n).then (compare "" "") :=
          rfl
        have hempty : compare "" "" = .eq := by decide
        rw [hkeys, hempty, Ordering.then_eq]
        rfl
    | word t => rfl
  | word s => cases b with
    | number n => rfl
    | word t => rfl

instance : Ordered StateName where
  compare := order
  eq_swap := by
    intro a b
    rw [order_eq, order_eq]
    exact Std.OrientedCmp.eq_swap
  isLE_trans := by
    intro a b c
    rw [order_eq, order_eq, order_eq]
    exact Std.TransCmp.isLE_trans
  compare_self := by
    intro a
    rw [order_eq]
    exact Std.ReflCmp.compare_self
  eq_of_compare := by
    intro a b h
    rw [order_eq] at h
    exact key_injective (Std.LawfulEqCmp.eq_of_compare h)

instance : Describe StateName where
  describe
    | number n => describe n
    | word s => describe s

end StateName

end WordAutomata
