import WordAutomata.Pattern.Matching
import WordAutomata.Proofs.Fragments

/-!
# The Language of a Pattern

A pattern is compiled to a fragment, and matching runs the automaton that the
fragment makes. This module says that the words it accepts are those that the
pattern stands for.

`Pattern.language` gives each constructor its operation on languages. Compiling
follows the same constructors, so the proof is an induction over the pattern with
one lemma for each way to join fragments. What the induction carries along is
that a fragment takes its states from the range between the supply before and
the supply after. Ranges handed out one after the other do not overlap, which is
what the lemmas on joined fragments ask for.

## Main definitions

* `Pattern.language`: The words that a pattern stands for, as a language.

## Theorems

* `Pattern.matches_iff`: The inductive description has the same words.
* `Pattern.compile_spec`: A compiled pattern has states of its own and the words
  of the pattern.
* `Pattern.mem_language_iff_path`: They are read on the paths of its automaton.
* `Pattern.accepts_iff_mem_language`: Matching decides the language.
-/

namespace WordAutomata

namespace Pattern

/-- The words that a pattern stands for. -/
def language : Pattern → Language Char
  | empty => 1
  | literal c => {[c]}
  | concatenate p q => p.language * q.language
  | choose p q => p.language + q.language
  | repeated p => KStar.kstar p.language

/-- The inductive description of the words of a pattern says the same as the
    operations on languages. -/
theorem matches_iff {p : Pattern} {w : List Char} : Matches p w ↔ w ∈ p.language := by
  constructor
  · intro h
    induction h with
    | empty => exact Language.nil_mem_one
    | literal c => exact rfl
    | concatenate _ _ ihp ihq => exact Language.append_mem_mul ihp ihq
    | chooseFirst _ ih => exact .inl ih
    | chooseSecond _ ih => exact .inr ih
    | repeatNone => exact Language.nil_mem_kstar _
    | repeatMore _ _ ihp ihr => exact Fragment.append_mem_kstar ihp ihr
  · intro h
    induction p generalizing w with
    | empty =>
        rw [(Language.mem_one w).1 h]
        exact .empty
    | literal c =>
        have hw : w = [c] := h
        rw [hw]
        exact .literal c
    | concatenate p q ihp ihq =>
        rcases Language.mem_mul.1 h with ⟨u, hu, v, hv, rfl⟩
        exact .concatenate (ihp hu) (ihq hv)
    | choose p q ihp ihq =>
        rcases h with h | h
        · exact .chooseFirst (ihp h)
        · exact .chooseSecond (ihq h)
    | repeated p ih =>
        rcases h with ⟨words, rfl, hwords⟩
        -- A row of words is taken apart from the front.
        induction words with
        | nil => exact .repeatNone
        | cons v words ihw =>
            refine .repeatMore (ih (hwords v List.mem_cons_self)) (ihw fun u hu => ?_)
            exact hwords u (List.mem_cons_of_mem v hu)

/-- A compiled pattern has the states that the supply handed out for it, and
    reads the words of the pattern. -/
theorem compile_spec (p : Pattern) (supply : StateSupply) :
    (p.compile supply).1.Within supply.next (p.compile supply).2.next ∧
      (p.compile supply).1.language = p.language := by
  induction p generalizing supply with
  | empty =>
      refine ⟨Fragment.within_point ?_, Fragment.language_point _⟩
      exact ⟨Nat.le_refl _, Nat.lt_succ_self _⟩
  | literal c =>
      refine ⟨Fragment.within_edge ?_ ?_, Fragment.language_edge ?_ c⟩
      · exact ⟨Nat.le_refl _, Nat.lt_succ_of_lt (Nat.lt_succ_self _)⟩
      · exact ⟨Nat.le_succ _, Nat.lt_succ_self _⟩
      · intro h
        injection h with hvalue
        exact absurd hvalue (Nat.ne_of_lt (Nat.lt_succ_self supply.next))
  | concatenate p q ihp ihq =>
      -- The second supply starts where the first one ended, so the ranges meet.
      rcases ihp supply with ⟨hp, hpl⟩
      rcases ihq (p.compile supply).2 with ⟨hq, hql⟩
      refine ⟨Fragment.within_followedBy hp hq, ?_⟩
      rw [language, ← hpl, ← hql]
      exact Fragment.language_followedBy hp hq
  | choose p q ihp ihq =>
      rcases ihp supply with ⟨hp, hpl⟩
      rcases ihq (p.compile supply).2 with ⟨hq, hql⟩
      -- The new start comes after both ranges.
      refine ⟨Fragment.within_either_next hp hq, ?_⟩
      rw [language, ← hpl, ← hql]
      exact Fragment.language_either hp hq fun h => Nat.lt_irrefl _ h.2
  | repeated p ih =>
      rcases ih supply with ⟨hp, hpl⟩
      refine ⟨Fragment.within_looped_next hp, ?_⟩
      rw [language, ← hpl]
      exact Fragment.language_looped hp fun h => Nat.lt_irrefl _ h.2

theorem mem_accepting_toNfa {p : Pattern} {s : StateIndex} :
    s ∈ p.toNfa.accepting ↔ s ∈ (p.compile .fresh).1.accepting :=
  SortedSet.mem_ofList

/-- The words of a pattern are those for which a path leads from the start state of its
    automaton to an accept state. -/
theorem mem_language_iff_path {p : Pattern} {w : List Char} : w ∈ p.language ↔
    ∃ t ∈ p.toNfa.accepting, Finite.Path p.toNfa.rulebook.rules p.toNfa.start w t := by
  rw [← (compile_spec p .fresh).2, Fragment.mem_language]
  simp only [mem_accepting_toNfa]
  rfl

/-- Patterns with the same words match the same words. -/
theorem accepts_eq_of_language_eq {p q : Pattern} (h : p.language = q.language) (w : List Char) :
    p.accepts w = q.accepts w := by
  rw [Bool.eq_iff_iff, accepts, accepts, Nfa.accepts_iff, Nfa.accepts_iff, ← mem_language_iff_path,
    ← mem_language_iff_path, h]

/-- A pattern matches a word exactly if the word is in the language of the pattern, and the
    inductive description of its words says the same. -/
theorem accepts_iff_mem_language (p : Pattern) (w : List Char) :
    (p.accepts w = true ↔ w ∈ p.language) ∧ (p.accepts w = true ↔ Matches p w) := by
  have hlanguage : p.accepts w = true ↔ w ∈ p.language := by
    rw [accepts, Nfa.accepts_iff, mem_language_iff_path]
  exact ⟨hlanguage, hlanguage.trans matches_iff.symm⟩

end Pattern

end WordAutomata
