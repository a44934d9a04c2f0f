import WordAutomata.Text.Unprintable
import WordAutomata.Text.Combining

/-!
# Quoted Text

The quoted form of texts and characters, in which every character of a
message can be seen. Zero, tab, line feed and carriage return have a short
form, the delimiter and the backslash are marked with a backslash, and what
cannot be printed or would join with its neighbour is written by its code
point. All else stands for itself.

## Main definitions

* `escaped`: A character inside quotes.
* `quoted`: A text between double quotes.
* `quotedChar`: A character between single quotes.
-/

namespace WordAutomata

namespace Text

/-- A code point in hexadecimal, between braces. -/
def codePoint (c : Char) : String :=
  "\\u\x7b" ++ String.ofList (Nat.toDigits 16 c.toNat) ++ "\x7d"

/-- Characters from the space up to the tilde. -/
def isPlain (c : Char) : Bool := ' ' ≤ c && c ≤ '~'

/-- A character as it is written between two delimiters. -/
def escaped (delimiter c : Char) : String :=
  if c = '\x00' then "\\0"
  else if c = '\t' then "\\t"
  else if c = '\n' then "\\n"
  else if c = '\r' then "\\r"
  else if c = '\\' || c = delimiter then "\\" ++ c.toString
  else if isPlain c then c.toString
  else if isCombining c || isUnprintable c then codePoint c
  else c.toString

/-- A text between double quotes. -/
def quoted (s : String) : String :=
  "\"" ++ s.foldl (fun text c => text ++ escaped '"' c) "" ++ "\""

/-- A character between single quotes. -/
def quotedChar (c : Char) : String := "'" ++ escaped '\'' c ++ "'"

end Text

end WordAutomata
