/-!
# Natural Numbers in Decimal

Numbers that fit into 64 bits, written with the digits 0 to 9 and at most one
plus sign in front. A text that is no such number is refused with the first
fault from the left: reading stops at a character that is no digit, or at the
digit with which the number gets too large.

## Main definitions

* `NumberError`: Why a text is no number.
* `readNatural`: The number that a text stands for.
-/

namespace WordAutomata

/-- Why a text is no number. -/
inductive NumberError where
  /-- There is nothing to read. -/
  | empty
  /-- There is a character that is no digit, or there is nothing after the sign. -/
  | invalidDigit
  /-- The number does not fit into 64 bits. -/
  | tooLarge
deriving DecidableEq

def NumberError.message : NumberError → String
  | empty => "cannot parse integer from empty string"
  | invalidDigit => "invalid digit found in string"
  | tooLarge => "number too large to fit in target type"

namespace Text

/-- Whether a character is one of the digits 0 to 9. -/
def isDigit (c : Char) : Bool := '0' ≤ c && c ≤ '9'

/-- The value of a digit. -/
def digitValue (c : Char) : Nat := c.toNat - '0'.toNat

/-- The number after one more digit. -/
def appendDigit (n : Nat) (c : Char) : Except NumberError Nat :=
  if !isDigit c then .error .invalidDigit
  else
    let m := n * 10 + digitValue c
    if m < UInt64.size then .ok m else .error .tooLarge

/-- The number written with some digits. -/
def readDigits (digits : List Char) : Except NumberError Nat := digits.foldlM appendDigit 0

/-- The number that a text stands for. -/
def readNatural : List Char → Except NumberError Nat
  | [] => .error .empty
  | ['+'] => .error .invalidDigit
  | '+' :: digits => readDigits digits
  | digits => readDigits digits

end Text

end WordAutomata
