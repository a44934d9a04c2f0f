/-!
# Control Characters

A terminal acts on a control character instead of showing it, and what
follows an escape character is a command to it. A text from elsewhere is
therefore stripped of both before it is shown, so that it cannot move the
cursor or change a colour. What is left is what would have been shown, and
the white space among the control characters.

Only the control characters of ASCII count. A command may lack its end, and
then the rest of the text is part of it.

## Main definitions

* `isControl`: The control characters.
* `ControlSequence`: What an escape character has begun.
* `stripped`: A text without control characters and commands.

## Theorems

* `stripped_of_no_control`: A text without control characters stays as it is.
* `space_of_mem_stripped`: What is left of control characters is white space.
-/

namespace WordAutomata

namespace Text

/-- The control characters of ASCII. -/
def isControl (c : Char) : Bool := c < ' ' || c = '\x7f'

/-- The control characters that are white space. -/
def isControlSpace (c : Char) : Bool := c = '\t' || c = '\n' || c = '\x0c' || c = '\r'

/-- What an escape character has begun. -/
inductive ControlSequence where
  /-- Nothing, or what was begun has ended. -/
  | nothing
  /-- The escape character itself was the last one. -/
  | escape
  /-- A command with parameters, which a character from `@` to `~` ends. -/
  | parameters
  /-- A text for the terminal, which a bell ends. -/
  | message
deriving DecidableEq

namespace ControlSequence

/-- What a character makes of what was begun. -/
def next : ControlSequence → Char → ControlSequence
  | _, '\x1b' => escape
  | nothing, _ => nothing
  | escape, c =>
    if c = '[' then parameters
    else if c = ']' || c = 'P' || c = 'X' || c = '^' || c = '_' then message
    else if ' ' ≤ c && c ≤ '/' then escape
    else nothing
  | parameters, c => if isControl c || ('@' ≤ c && c ≤ '~') then nothing else parameters
  | message, c => if c = '\x07' || c = '\x18' || c = '\x1a' then nothing else message

/-- Whether a character is left where this was begun. -/
def leaves : ControlSequence → Char → Bool
  | nothing, c => !isControl c || isControlSpace c
  | message, _ => false
  | _, c => isControlSpace c

/-- The characters that are left after something was begun. -/
def strip : ControlSequence → List Char → List Char
  | _, [] => []
  | begun, c :: rest =>
    if begun.leaves c then c :: (begun.next c).strip rest else (begun.next c).strip rest

theorem next_nothing {c : Char} (h : isControl c = false) : nothing.next c = nothing := by
  unfold next
  split
  · simp [isControl] at h
  all_goals simp_all

end ControlSequence

/-- A text without control characters and commands. -/
def stripped (text : List Char) : List Char := ControlSequence.nothing.strip text

/-- A text without control characters stays as it is. -/
theorem stripped_of_no_control {text : List Char} (h : ∀ c ∈ text, isControl c = false) :
    stripped text = text := by
  unfold stripped
  induction text with
  | nil => rfl
  | cons c rest ih =>
    have hc := h c List.mem_cons_self
    rw [ControlSequence.strip, ControlSequence.next_nothing hc, ih fun d hd =>
      h d (List.mem_cons_of_mem c hd)]
    simp [ControlSequence.leaves, hc]

/-- The same after something was begun. -/
theorem space_of_mem_strip {text : List Char} {begun : ControlSequence} {c : Char}
    (hc : c ∈ begun.strip text) (h : isControl c = true) : isControlSpace c = true := by
  induction text generalizing begun with
  | nil => simp [ControlSequence.strip] at hc
  | cons d rest ih =>
    rw [ControlSequence.strip] at hc
    split at hc
    · rename_i hd
      rcases List.mem_cons.mp hc with rfl | hc
      · cases begun <;> simp_all [ControlSequence.leaves]
      · exact ih hc
    · exact ih hc

/-- What is left of control characters is white space. -/
theorem space_of_mem_stripped {text : List Char} {c : Char} (hc : c ∈ stripped text)
    (h : isControl c = true) : isControlSpace c = true :=
  space_of_mem_strip hc h

end Text

end WordAutomata
