import WordAutomata.Describe
import WordAutomata.Text.Blank
import WordAutomata.Text.Natural

/-!
# Decimal Digits

Digits are read from the left, and reading gives up as soon as the number gets too
large. More digits never make it smaller, so if all of a number fits, then so does
what was read at every moment before.

## Theorems

* `Text.readNatural_of_digits`: Digits of a number that fits can be read.
* `toList_describe`: A number is described by its digits.
-/

namespace WordAutomata

namespace Text

theorem isDigit_iff {c : Char} : isDigit c = true ↔ 48 ≤ c.toNat ∧ c.toNat ≤ 57 := by
  simp only [isDigit, Bool.and_eq_true, decide_eq_true_eq]
  exact Iff.rfl

theorem isDigit_of_mem_toDigits {n : Nat} {c : Char} (h : c ∈ Nat.toDigits 10 n) :
    isDigit c = true := by
  have hdigit : c.isDigit = true := Nat.isDigit_of_mem_toDigits (by decide) (by decide) h
  simp only [Char.isDigit, Bool.and_eq_true, decide_eq_true_eq] at hdigit
  exact isDigit_iff.2 hdigit

/-- No digit is white space. -/
theorem isBlank_of_isDigit {c : Char} (h : isDigit c = true) : isBlank c = false := by
  rw [isDigit_iff] at h
  simp only [isBlank, blanks, List.any_cons, List.any_nil, Bool.or_false, Bool.or_eq_false_iff,
    Bool.and_eq_false_iff, decide_eq_false_iff_not]
  omega

theorem ne_of_isDigit {c d : Char} (h : isDigit c = true) (hd : isDigit d = false) : c ≠ d := by
  rintro rfl
  rw [h] at hd
  cases hd

/-- More digits never make a number smaller. -/
theorem le_ofDigitChars (digits : List Char) (n : Nat) : n ≤ Nat.ofDigitChars 10 digits n := by
  induction digits generalizing n with
  | nil => exact Nat.le_of_eq Nat.ofDigitChars_nil.symm
  | cons c digits ih =>
      rw [Nat.ofDigitChars_cons]
      have hrest := ih (10 * n + (c.toNat - '0'.toNat))
      omega

/-- Digits after a number are read, if the number that they make fits. -/
theorem foldlM_appendDigit {digits : List Char} {n : Nat} (hdigits : ∀ c ∈ digits, isDigit c = true)
    (hfits : Nat.ofDigitChars 10 digits n < UInt64.size) :
    digits.foldlM appendDigit n = .ok (Nat.ofDigitChars 10 digits n) := by
  induction digits generalizing n with
  | nil => rfl
  | cons c digits ih =>
      rw [Nat.ofDigitChars_cons] at hfits ⊢
      -- The number so far is at most the whole one, so it fits if that does.
      have hle := le_ofDigitChars digits (10 * n + (c.toNat - '0'.toNat))
      have happend : appendDigit n c = .ok (10 * n + (c.toNat - '0'.toNat)) := by
        have hlt : n * 10 + digitValue c < UInt64.size := by
          unfold digitValue
          omega
        simp only [appendDigit, hdigits c List.mem_cons_self, Bool.not_true, Bool.false_eq_true,
          if_false, if_pos hlt]
        rw [digitValue, Nat.mul_comm]
      rw [List.foldlM_cons, happend]
      exact ih (fun d hd => hdigits d (List.mem_cons_of_mem c hd)) hfits

/-- Digits are read as the number that they make, if it fits. -/
theorem readNatural_of_digits {digits : List Char} (hne : digits ≠ [])
    (hdigits : ∀ c ∈ digits, isDigit c = true)
    (hfits : Nat.ofDigitChars 10 digits 0 < UInt64.size) :
    readNatural digits = .ok (Nat.ofDigitChars 10 digits 0) := by
  -- A sign in front would be taken off, but it is no digit.
  have hsign : '+' ∉ digits := fun hmem => ne_of_isDigit (hdigits _ hmem) rfl rfl
  unfold readNatural
  split
  · exact absurd rfl hne
  · exact absurd List.mem_cons_self hsign
  · exact absurd List.mem_cons_self hsign
  · exact foldlM_appendDigit hdigits hfits

end Text

/-- A number is described by its digits. -/
theorem toList_describe (n : Nat) : (describe n).toList = Nat.toDigits 10 n := String.toList_ofList

end WordAutomata
