/-!
# White Space

The 25 code points with the Unicode property White_Space, and cutting them
off the ends of a text. The property is wider than the white space of core,
which knows only four of them: a form feed, a no-break space or an
ideographic space around a number is white space as well.

## Main definitions

* `isBlank`: The property White_Space.
* `trim`: A text without white space at its ends.
* `isBlankText`: Whether a text is nothing but white space.

## Theorems

* `isBlank_of_isWhitespace`: What core calls white space is blank.
-/

namespace WordAutomata

namespace Text

/-- The code points with the property White_Space. -/
def blanks : List (Nat × Nat) := [
    (0x9, 0xD), (0x20, 0x20), (0x85, 0x85), (0xA0, 0xA0), (0x1680, 0x1680), (0x2000, 0x200A),
    (0x2028, 0x2029), (0x202F, 0x202F), (0x205F, 0x205F), (0x3000, 0x3000)
  ]

/-- Whether a character is white space. -/
def isBlank (c : Char) : Bool := blanks.any fun (first, last) => first ≤ c.toNat && c.toNat ≤ last

theorem isBlank_of_isWhitespace {c : Char} (h : c.isWhitespace = true) : isBlank c = true := by
  simp only [Char.isWhitespace, Bool.or_eq_true, decide_eq_true_eq] at h
  rcases h with ((rfl | rfl) | rfl) | rfl <;> rfl

/-- A text without white space in front. -/
def trimLeft (s : List Char) : List Char := s.dropWhile isBlank

/-- A text without white space at its end. -/
def trimRight (s : List Char) : List Char := (s.reverse.dropWhile isBlank).reverse

/-- A text without white space at its ends. -/
def trim (s : List Char) : List Char := trimRight (trimLeft s)

/-- Whether a text is nothing but white space. -/
def isBlankText (s : List Char) : Bool := s.all isBlank

end Text

end WordAutomata
