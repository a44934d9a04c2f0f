import WordAutomata.Describe

/-!
# Symbols

The label of a rule: a character that is read, or epsilon for a rule that is
taken without reading. Epsilon is written as a Greek letter, and the same
letter as a character is a different symbol that looks alike.

## Main definitions

* `Symbol`: Epsilon or a character.
* `Symbol.character?`: The character of a symbol.
-/

namespace WordAutomata

/-- The label of a rule. -/
inductive Symbol where
  /-- Taken without reading. -/
  | epsilon
  /-- Taken by reading this character. -/
  | character (c : Char)

namespace Symbol

instance : Coe Char Symbol := ⟨character⟩

/-- The character that is read, if one is. -/
def character? : Symbol → Option Char
  | epsilon => none
  | character c => some c

theorem eq_of_character?_eq {x y : Symbol} (h : x.character? = y.character?) : x = y := by
  cases x <;> cases y <;> simp_all [character?]

/-- Epsilon comes before all characters. -/
instance : Ordered Symbol := .pullback character? fun _ _ => eq_of_character?_eq

def isEpsilon : Symbol → Bool
  | epsilon => true
  | character _ => false

/-- The symbol as a rule shows it. -/
def text : Symbol → String
  | epsilon => "ε"
  | character c => c.toString

/-- The symbol with its kind, so that epsilon and the letter differ. -/
instance : Describe Symbol where
  describe
    | epsilon => "Epsilon"
    | character c => "Character(" ++ Text.quotedChar c ++ ")"

end Symbol

end WordAutomata
