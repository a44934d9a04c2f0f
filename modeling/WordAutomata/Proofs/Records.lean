import WordAutomata.Log

/-!
# The Records of One Level

A log mixes records of all levels. What is said of the warnings of some activity
should not depend on how much it traces, so `recordsOf` looks at one level only.
Noting a record of another level leaves it alone, and noting one of the level
appends to it, provided that the level is kept.

What is kept depends on the limit, and no note ever changes the limit.

## Theorems

* `Log.noteEach_induction`: What every note keeps, noting a list keeps.
* `Log.recordsOf_note`: A note appends a record to those of its level.
* `Log.recordsOf_note_of_ne`: It leaves those of other levels alone.
* `Log.recordsOf_note_eq`: Both in one.
-/

universe u

namespace WordAutomata

namespace Log

variable {log : Log} {level other : Level}

/-- A property that notes of a level keep holds after noting a whole list. -/
theorem noteEach_induction {α : Type u} {P : Log → Prop} {message : α → String}
    (hstep : ∀ log a, P log → P (log.note level fun _ => message a)) (hlog : P log)
    (items : List α) : P (log.noteEach level message items) := by
  unfold noteEach
  by_cases hk : log.keeps level
  · rw [if_pos hk]
    clear hk
    induction items generalizing log with
    | nil => exact hlog
    | cons a items ih => exact ih (hstep log a hlog)
  · rw [if_neg hk]
    exact hlog

@[simp]
theorem keeps_note {message : Unit → String} :
    (log.note level message).keeps other = log.keeps other := by
  unfold keeps
  rw [limit_note]

@[simp]
theorem keeps_noteEach {α : Type u} {message : α → String} {items : List α} :
    (log.noteEach level message items).keeps other = log.keeps other := by
  apply noteEach_induction (P := fun l => l.keeps other = log.keeps other)
  · intro l a hl
    rw [keeps_note, hl]
  · rfl

theorem recordsOf_note {message : Unit → String} :
    (log.note level message).recordsOf level =
      log.recordsOf level ++ if log.keeps level then [⟨level, message ()⟩] else [] := by
  unfold note
  by_cases h : log.keeps level
  · simp [h, recordsOf, records]
  · simp [h]

theorem recordsOf_note_of_ne {message : Unit → String} (h : level ≠ other) :
    (log.note level message).recordsOf other = log.recordsOf other := by
  unfold note
  by_cases hk : log.keeps level
  · simp [hk, h, recordsOf, records]
  · simp [hk]

/-- Of any level, there is one record more if the note is of this level and is kept. -/
theorem recordsOf_note_eq {message : Unit → String} :
    (log.note level message).recordsOf other = log.recordsOf other ++
      if other = level ∧ log.keeps level = true then [⟨level, message ()⟩] else [] := by
  by_cases h : other = level
  · subst h
    simp only [recordsOf_note, true_and]
  · rw [recordsOf_note_of_ne (Ne.symm h), if_neg fun hboth => h hboth.1, List.append_nil]

theorem recordsOf_noteEach_of_ne {α : Type u} {message : α → String} {items : List α}
    (h : level ≠ other) :
    (log.noteEach level message items).recordsOf other = log.recordsOf other := by
  apply noteEach_induction (P := fun l => l.recordsOf other = log.recordsOf other)
  · intro l a hl
    rw [recordsOf_note_of_ne h, hl]
  · rfl

end Log

end WordAutomata
