import WordAutomata.SortedSet.Basic
import WordAutomata.Index
import WordAutomata.Numbering
import WordAutomata.Text.Quoted

/-!
# Descriptions

How states and the sets of them appear in messages: numbers in decimal, texts
in quotes, sets between braces. Messages of errors and of the log name states
of any type, so a type of states brings its description along.

## Main definitions

* `Describe`: Types whose values have a text in messages.
* `braced`: Items between braces, separated by commas.
* `Numbering.table`, `Numbering.tallTable`: The text of a numbering, in one
  line and with a line for each element.
-/

universe u

namespace WordAutomata

/-- Types whose values have a text in messages. -/
class Describe (α : Type u) where
  /-- The text of a value. -/
  describe : α → String

export Describe (describe)

/-- Items between braces, separated by commas. -/
def braced (items : List String) : String := "\x7b" ++ ", ".intercalate items ++ "\x7d"

instance : Describe Nat := ⟨fun n => String.ofList (Nat.toDigits 10 n)⟩

/-- Negative numbers have a sign, others have none. -/
instance : Describe Int where
  describe
    | .ofNat n => describe n
    | .negSucc n => "-" ++ describe (n + 1)

instance : Describe String := ⟨Text.quoted⟩

instance {tag : Type} : Describe (Index tag) := ⟨fun i => describe i.value⟩

instance {α : Type u} [Ordered α] [Describe α] : Describe (SortedSet α) :=
  ⟨fun s => braced (s.toList.map describe)⟩

namespace Numbering

variable {α : Type u} [Ordered α] [Describe α]

/-- An element with its number in front. -/
def entryText : ElementIndex × α → String
  | (i, a) => describe i ++ ": " ++ describe a

/-- The elements with their numbers, between braces. -/
def table (n : Numbering α) : String := braced (n.entries.map entryText)

/-- The elements with their numbers between braces, each on a line of its own. -/
def tallTable (n : Numbering α) : String :=
  if n.isEmpty then table n
  else "\x7b\n" ++ String.join (n.entries.map fun e => "    " ++ entryText e ++ ",\n") ++ "\x7d"

end Numbering

end WordAutomata
