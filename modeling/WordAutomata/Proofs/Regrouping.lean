import WordAutomata.Pattern.Printer
import WordAutomata.Proofs.PatternLanguage

/-!
# Regrouped Patterns

Three patterns in a row can be grouped in two ways, and so can three choices. The
words are the same either way, and the text does not show which it was: operands
that bind as strongly as the operator stand without parentheses on both sides.

`Regrouped` relates the patterns that differ in nothing else, at any depth. What
stands in a row is kept here as a list and joined from the left. Joining the lists
of two operands one after the other then comes to the same as joining them first
and their patterns afterwards.

## Main definitions

* `Pattern.Regrouped`: The congruence that the two laws of associativity generate.
* `Pattern.chain`: A row of patterns, joined from the left.

## Theorems

* `Pattern.Regrouped.text_eq`: Grouping does not show in the text.
* `Pattern.Regrouped.accepts_eq`: It does not change the words.
* `Pattern.regrouped_chain_append`: Two rows make one.
-/

namespace WordAutomata

namespace Pattern

/-- The same pattern, up to the grouping of patterns in a row and of choices. -/
inductive Regrouped : Pattern → Pattern → Prop
  | refl (p : Pattern) : Regrouped p p
  | symm {p q : Pattern} : Regrouped p q → Regrouped q p
  | trans {p q r : Pattern} : Regrouped p q → Regrouped q r → Regrouped p r
  | concatenate {p p' q q' : Pattern} :
      Regrouped p p' → Regrouped q q' → Regrouped (concatenate p q) (concatenate p' q')
  | choose {p p' q q' : Pattern} :
      Regrouped p p' → Regrouped q q' → Regrouped (choose p q) (choose p' q')
  | repeated {p p' : Pattern} : Regrouped p p' → Regrouped (repeated p) (repeated p')
  | concatenateAssoc (p q r : Pattern) :
      Regrouped (concatenate (concatenate p q) r) (concatenate p (concatenate q r))
  | chooseAssoc (p q r : Pattern) :
      Regrouped (choose (choose p q) r) (choose p (choose q r))

namespace Regrouped

variable {p q : Pattern}

/-- Regrouped patterns have the same operator on top and the same text. -/
theorem precedence_text_eq (h : Regrouped p q) : p.precedence = q.precedence ∧ p.text = q.text := by
  induction h with
  | refl p => exact ⟨rfl, rfl⟩
  | symm _ ih => exact ⟨ih.1.symm, ih.2.symm⟩
  | trans _ _ ihp ihq => exact ⟨ihp.1.trans ihq.1, ihp.2.trans ihq.2⟩
  | concatenate _ _ ihp ihq =>
      -- An operand gets its parentheses by its operator, so the precedences are needed too.
      refine ⟨rfl, ?_⟩
      simp only [text, bracketed, ihp.1, ihp.2, ihq.1, ihq.2]
  | choose _ _ ihp ihq =>
      refine ⟨rfl, ?_⟩
      simp only [text, bracketed, ihp.1, ihp.2, ihq.1, ihq.2]
  | repeated _ ih =>
      refine ⟨rfl, ?_⟩
      simp only [text, bracketed, ih.1, ih.2]
  | concatenateAssoc p q r =>
      refine ⟨rfl, ?_⟩
      simp only [text, bracketed, precedence, Nat.lt_irrefl, if_false, List.append_assoc]
  | chooseAssoc p q r =>
      refine ⟨rfl, ?_⟩
      simp only [text, bracketed, Nat.not_lt_zero, if_false, List.append_assoc, List.cons_append]

/-- How a pattern is grouped does not show in its text. -/
theorem text_eq (h : Regrouped p q) : p.text = q.text := h.precedence_text_eq.2

theorem language_eq (h : Regrouped p q) : p.language = q.language := by
  induction h with
  | refl p => rfl
  | symm _ ih => exact ih.symm
  | trans _ _ ihp ihq => exact ihp.trans ihq
  | concatenate _ _ ihp ihq => rw [language, language, ihp, ihq]
  | choose _ _ ihp ihq => rw [language, language, ihp, ihq]
  | repeated _ ih => rw [language, language, ih]
  | concatenateAssoc p q r => exact mul_assoc p.language q.language r.language
  | chooseAssoc p q r => exact add_assoc p.language q.language r.language

/-- Regrouped patterns match the same words. -/
theorem accepts_eq (h : Regrouped p q) (w : List Char) : p.accepts w = q.accepts w :=
  accepts_eq_of_language_eq h.language_eq w

end Regrouped

/-! ## Rows -/

/-- The patterns of a list with the last one first, joined from the left. -/
def chain (join : Pattern → Pattern → Pattern) : List Pattern → Pattern
  | [] => empty
  | [p] => p
  | p :: q :: row => join (chain join (q :: row)) p

/-- Two rows that are joined are regrouped to the row of both. -/
theorem regrouped_chain_append {join : Pattern → Pattern → Pattern}
    (hcongr : ∀ {p p' q q'}, Regrouped p p' → Regrouped q q' → Regrouped (join p q) (join p' q'))
    (hassoc : ∀ p q r, Regrouped (join (join p q) r) (join p (join q r)))
    {l m : List Pattern} (hl : l ≠ []) (hm : m ≠ []) :
    Regrouped (join (chain join m) (chain join l)) (chain join (l ++ m)) := by
  induction l with
  | nil => exact absurd rfl hl
  | cons p l ih =>
      cases l with
      | nil =>
          rcases List.exists_cons_of_ne_nil hm with ⟨q, m, rfl⟩
          exact .refl _
      | cons q l =>
          -- The last pattern of the second row stays where it is, to the right of all others.
          have hleft : Regrouped (join (chain join m) (chain join (q :: l)))
              (chain join (q :: l ++ m)) := ih (List.cons_ne_nil q l)
          exact (hassoc _ _ _).symm.trans (hcongr hleft (.refl p))

end Pattern

end WordAutomata
