/-!
# Sets of Code Points

Properties of characters are tables: a long ascending list of ranges of code
points that have the property. A question is answered by halving the list.

## Main definitions

* `CodePoints`: Ascending ranges of code points.
* `CodePoints.contains`: Search by halving.
-/

namespace WordAutomata

namespace Text

/-- Ranges of code points, both ends included, in ascending order. -/
abbrev CodePoints := Array (Nat × Nat)

namespace CodePoints

/-- Searches the ranges with numbers from `low` up to, and not including,
    `high`. -/
def search (ranges : CodePoints) (n low high : Nat) : Bool :=
  if _h : low < high then
    let middle := (low + high) / 2
    match ranges[middle]? with
    | none => false
    | some (first, last) =>
      if n < first then search ranges n low middle
      else if last < n then search ranges n (middle + 1) high
      else true
  else false
termination_by high - low

/-- Whether a code point lies in one of the ranges. -/
def contains (ranges : CodePoints) (n : Nat) : Bool := search ranges n 0 ranges.size

end CodePoints

end Text

end WordAutomata
