/-!
# Lines

A file as bytes, cut into lines and decoded line by line, and a text cut into
lines in the same way. Each line feed ends a line, and what follows the last
one is a line too, unless it is empty. A carriage return before a line feed
belongs to the line end.

Decoding a line may fail, and a reader that gives up earlier never finds out:
an invalid line is only a fault where it is reached.

## Main definitions

* `cut`: A list cut at each occurrence of an element.
* `lines`: The lines of a list, for given characters that end a line.
* `byteLines`: The lines of a file, as bytes.
* `decodeLine?`: The characters of a line.

## Theorems

* `joined_cut`: Nothing but the separators is lost in cutting.
-/

universe u

namespace WordAutomata

namespace Text

/-- Puts an element in front of the first of some parts. -/
def consPart {α : Type u} (a : α) : List (List α) → List (List α)
  | [] => [[a]]
  | part :: parts => (a :: part) :: parts

/-- The parts of a list between the occurrences of a separator. There is one
    part more than there are separators. -/
def cut {α : Type u} [DecidableEq α] (separator : α) (l : List α) : List (List α) :=
  l.foldr (fun a parts => if a = separator then [] :: parts else consPart a parts) [[]]

theorem cut_ne_nil {α : Type u} [DecidableEq α] (separator : α) (l : List α) :
    cut separator l ≠ [] := by
  cases l with
  | nil => simp [cut]
  | cons a l =>
    rw [cut, List.foldr_cons]
    split
    · simp
    · unfold consPart
      split <;> simp

/-- Nothing but the separators is lost in cutting. -/
theorem joined_cut {α : Type u} [DecidableEq α] (separator : α) (l : List α) :
    [separator].intercalate (cut separator l) = l := by
  induction l with
  | nil => rfl
  | cons a l ih =>
    rw [cut, List.foldr_cons, ← cut]
    have hne := cut_ne_nil separator l
    split
    · rename_i h
      subst h
      cases hc : cut a l with
      | nil => exact absurd hc hne
      | cons part parts =>
        rw [hc] at ih
        simp [List.intercalate_cons_cons, ih]
    · cases hc : cut separator l with
      | nil => exact absurd hc hne
      | cons part parts =>
        rw [hc] at ih
        cases parts with
        | nil => simpa [consPart] using ih
        | cons next parts =>
          simp only [consPart, List.intercalate_cons_cons, List.cons_append] at ih ⊢
          rw [ih]

/-- A line without the return at its end. -/
def dropReturn {α : Type u} [DecidableEq α] (ret : α) (line : List α) : List α :=
  if line.getLast? = some ret then line.dropLast else line

/-- The lines of a list. A feed ends a line, and a return before it is dropped. -/
def lines {α : Type u} [DecidableEq α] (feed ret : α) (l : List α) : List (List α) :=
  let parts := cut feed l
  let ended := parts.dropLast.map (dropReturn ret)
  match parts.getLast? with
  | none | some [] => ended
  | some rest => ended ++ [rest]

/-- The lines of a file. -/
def byteLines (bytes : List UInt8) : List (List UInt8) := lines 10 13 bytes

/-- The lines of a text. -/
def textLines (text : String) : List String :=
  (lines '\n' '\r' text.toList).map String.ofList

/-- The characters of a line in UTF-8. -/
def decodeLine? (line : List UInt8) : Option (List Char) :=
  (ByteArray.mk line.toArray).utf8Decode?.map Array.toList

end Text

end WordAutomata
