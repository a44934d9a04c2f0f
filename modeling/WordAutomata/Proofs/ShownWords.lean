import WordAutomata.Proofs.PrintedPatterns
import Mathlib

/-!
# Words That a Text Shows

The empty pattern is printed as nothing, so a text does not tell where it stands. That
does no harm where it is an operand in a row or a choice. What is left out is the empty
word, and a row without it has the same words. But a star is printed behind its operand,
and behind an operand that is not seen it follows on whatever stands in front: a letter
and then the empty pattern repeated have the text of the letter repeated.

So here the words are read off the text itself, with a star that belongs to what it
follows on, and to the empty word at the start of a row. All patterns of one text show
the same words. A pattern is legible if the words that it shows are its own, and all
that this takes is that a row never goes on with a star, unless with a star behind a
star. A star behind a star changes nothing, and neither does a star at the start of a row.

## Main definitions

* `Pattern.Unmarked`: A pattern without marks as literals.
* `Pattern.Shown`: The words that are shown since the last open parenthesis.
* `Pattern.shown`: What the text of a pattern adds to them.
* `Pattern.Legible`: No star follows on what it does not repeat.
* `Pattern.Shows`: What is added are the words of a pattern, behind those before.

## Theorems

* `Pattern.foldl_read_text`: What reading a printed text does.
* `Pattern.shows_shown`: A legible pattern in a row shows its words.
* `Pattern.shown_eq_of_text_eq`: Patterns with one text show the same words.
* `Pattern.accepts_eq_of_text_eq`: Legible patterns with one text match the same words.
* `Pattern.text_starBehind`: A text of two patterns with different words.
-/

open Computability

namespace WordAutomata

namespace Pattern

/-- A pattern without marks as literals. -/
def Unmarked (p : Pattern) : Prop := ∀ c ∈ p.literals, c ∉ marks

instance (p : Pattern) : Decidable p.Unmarked :=
  List.decidableBAll (fun c => c ∉ marks) p.literals

/-- The words that are shown since the last parenthesis that is still open. -/
structure Shown where
  /-- The words of the choices before the last bar. -/
  ended : Language Char
  /-- The words of the row since then, but for what stands last. -/
  front : Language Char
  /-- The words of what stands last in the row, to which a star would belong. -/
  last : Language Char

namespace Shown

/-- Nothing is read yet, and a row of nothing has the empty word. -/
def blank : Shown := ⟨0, 1, 1⟩

/-- The words of the row. -/
def row (l : Shown) : Language Char := l.front * l.last

/-- The words of all choices. -/
def words (l : Shown) : Language Char := l.ended + l.row

/-- Adds words to the row. -/
def add (l : Shown) (words : Language Char) : Shown := ⟨l.ended, l.row, words⟩

/-- Ends a choice. -/
def bar (l : Shown) : Shown := ⟨l.words, 1, 1⟩

/-- Repeats what stands last. -/
def star (l : Shown) : Shown := ⟨l.ended, l.front, l.last∗⟩

/-- One more star would change nothing. -/
def Closed (l : Shown) : Prop := l.last∗ = l.last

/-- Reads a character. The second part is what stood before the open parentheses. -/
def read : Shown × List Shown → Char → Shown × List Shown
  | (l, outer), c =>
    if c = '(' then (.blank, l :: outer)
    else if c = ')' then
      match outer with
      | [] => (l, [])
      | m :: outer => (m.add l.words, outer)
    else if c = '|' then (l.bar, outer)
    else if c = '*' then (l.star, outer)
    else (l.add {[c]}, outer)

variable {l m : Shown} {outer : List Shown}

theorem read_open : read (l, outer) '(' = (.blank, l :: outer) := rfl

theorem read_close : read (l, m :: outer) ')' = (m.add l.words, outer) := rfl

theorem read_bar : read (l, outer) '|' = (l.bar, outer) := rfl

theorem read_star : read (l, outer) '*' = (l.star, outer) := rfl

theorem read_literal {c : Char} (h : c ∉ marks) : read (l, outer) c = (l.add {[c]}, outer) := by
  simp only [marks, List.mem_cons, List.not_mem_nil, or_false, not_or] at h
  simp only [read, if_neg h.1, if_neg h.2.1, if_neg h.2.2.1, if_neg h.2.2.2]

theorem closed_of_one (h : l.last = 1) : l.Closed := by
  rw [Closed, h, kstar_one]

theorem closed_star (l : Shown) : l.star.Closed := kstar_idem l.last

end Shown

/-! ## Reading a printed text -/

/-- What an operand adds: its own parts, or its words if it stands between parentheses. -/
def within (outer : Nat) (operand : Pattern) (shown : Shown → Shown) (l : Shown) : Shown :=
  if operand.precedence < outer then l.add (shown .blank).words else shown l

/-- What the text of a pattern adds to the words that are shown before it. -/
def shown : Pattern → Shown → Shown
  | empty => id
  | literal c => fun l => l.add {[c]}
  | concatenate p q => fun l => within 1 q q.shown (within 1 p p.shown l)
  | choose p q => fun l => q.shown (p.shown l).bar
  | repeated p => fun l => (within 2 p p.shown l).star

/-- The text of an operand adds what the operand does, if its own text adds its parts. -/
theorem foldl_read_bracketed {p : Pattern} (outer : Nat)
    (htext : ∀ l rest, p.text.foldl Shown.read (l, rest) = (p.shown l, rest))
    (l : Shown) (rest : List Shown) :
    (bracketed outer p p.text).foldl Shown.read (l, rest) = (within outer p p.shown l, rest) := by
  by_cases h : p.precedence < outer
  · simp only [bracketed, within, if_pos h, List.cons_append, List.foldl_cons, Shown.read_open,
      List.foldl_append, htext, List.foldl_nil, Shown.read_close]
  · simp only [bracketed, within, if_neg h, htext]

/-- Reading the text of a pattern adds its parts and leaves everything outside of the
    parentheses as it was. The empty pattern is no exception. -/
theorem foldl_read_text {p : Pattern} (h : p.Unmarked) (l : Shown) (rest : List Shown) :
    p.text.foldl Shown.read (l, rest) = (p.shown l, rest) := by
  -- What was read before is any, since an operand is read after what stands before it.
  induction p generalizing l rest with
  | empty => rfl
  | literal c =>
      simp only [text, List.foldl_cons, List.foldl_nil, shown]
      exact Shown.read_literal (h c (List.mem_singleton_self c))
  | concatenate p q ihp ihq =>
      have hp : p.Unmarked := fun c hc => h c (List.mem_append_left _ hc)
      have hq : q.Unmarked := fun c hc => h c (List.mem_append_right _ hc)
      rw [text, List.foldl_append, foldl_read_bracketed 1 (ihp hp), foldl_read_bracketed 1 (ihq hq)]
      rfl
  | choose p q ihp ihq =>
      have hp : p.Unmarked := fun c hc => h c (List.mem_append_left _ hc)
      have hq : q.Unmarked := fun c hc => h c (List.mem_append_right _ hc)
      rw [text, List.foldl_append, foldl_read_bracketed 0 (ihp hp), List.foldl_cons, Shown.read_bar,
        foldl_read_bracketed 0 (ihq hq)]
      rfl
  | repeated p ih =>
      rw [text, List.foldl_append, foldl_read_bracketed 2 (ih h), List.foldl_cons, Shown.read_star]
      rfl

/-! ## Legible patterns -/

/-- A text does not follow on another one with a star, unless the other one is empty or
    ends with a star. -/
def Follows (front back : List Char) : Prop :=
  back.head? = some '*' → ∀ c ∈ front.getLast?, c = '*'

instance (front back : List Char) : Decidable (Follows front back) :=
  @instDecidableForall _ _ inferInstance (Option.decidableForallMem front.getLast?)

/-- No star in the text of the pattern follows on what the pattern does not repeat, except
    on another star. -/
def Legible : Pattern → Prop
  | empty => True
  | literal _ => True
  | concatenate p q =>
      p.Legible ∧ q.Legible ∧ Follows (bracketed 1 p p.text) (bracketed 1 q q.text)
  | choose p q => p.Legible ∧ q.Legible
  | repeated p => p.Legible

instance decidableLegible : (p : Pattern) → Decidable p.Legible
  | empty => inferInstanceAs (Decidable True)
  | literal _ => inferInstanceAs (Decidable True)
  | concatenate p q =>
      @instDecidableAnd _ _ (decidableLegible p)
        (@instDecidableAnd _ _ (decidableLegible q) inferInstance)
  | choose p q => @instDecidableAnd _ _ (decidableLegible p) (decidableLegible q)
  | repeated p => decidableLegible p

/-- Behind anything that it follows, a text shows given words: in a row, with the same
    choices before it. Behind its last star another one changes nothing. -/
def Shows (text : List Char) (words : Language Char) (f : Shown → Shown) : Prop :=
  ∀ l, (text.head? = some '*' → l.Closed) →
    (f l).ended = l.ended ∧ (f l).row = l.row * words ∧
      (text.getLast? = some '*' → (f l).Closed) ∧ (text = [] → f l = l)

/-- At the start of a row, words are shown as one more choice. -/
def ShowsChoice (words : Language Char) (f : Shown → Shown) : Prop :=
  ∀ l, l.front = 1 → l.last = 1 → (f l).words = l.ended + words

section Shows

variable {s t : List Char} {K L : Language Char} {f g : Shown → Shown}

theorem shows_id : Shows [] 1 id := by
  intro l _
  refine ⟨rfl, (mul_one l.row).symm, fun h => ?_, fun _ => rfl⟩
  simp only [List.getLast?_nil, reduceCtorEq] at h

/-- What neither begins nor ends with a star stands for itself. -/
theorem shows_add (hne : t ≠ []) (hlast : t.getLast? ≠ some '*') : Shows t L (·.add L) :=
  fun _ _ => ⟨rfl, rfl, fun h => absurd h hlast, fun h => absurd h hne⟩

/-- With a star behind it, it is repeated. -/
theorem shows_star_add (L : Language Char) : Shows (t ++ ['*']) L∗ (fun l => (l.add L).star) := by
  intro l _
  refine ⟨rfl, rfl, fun _ => Shown.closed_star _, fun h => ?_⟩
  exact absurd h (List.append_ne_nil_of_right_ne_nil t (List.cons_ne_nil _ _))

/-- With nothing before it that it could repeat, a star stands for the empty word. -/
theorem shows_star : Shows ['*'] 1∗ Shown.star := by
  intro l hclosed
  have hlast : l.last∗ = l.last := hclosed rfl
  refine ⟨rfl, ?_, fun _ => Shown.closed_star _, fun h => absurd h (List.cons_ne_nil _ _)⟩
  rw [Shown.row, Shown.row, Shown.star, hlast, kstar_one, mul_one]

/-- A star behind a star changes nothing. -/
theorem Shows.star (hf : Shows t K∗ f) (hlast : t.getLast? = some '*') :
    Shows (t ++ ['*']) (K∗)∗ (fun l => (f l).star) := by
  have hne : t ≠ [] := by
    rintro rfl
    simp only [List.getLast?_nil, reduceCtorEq] at hlast
  intro l hclosed
  rw [List.head?_append_of_ne_nil _ hne] at hclosed
  rcases hf l hclosed with ⟨hended, hrow, hstar, _⟩
  have hsame : (f l).last∗ = (f l).last := hstar hlast
  refine ⟨hended, ?_, fun _ => Shown.closed_star _, fun h => ?_⟩
  · show (f l).front * (f l).last∗ = l.row * (K∗)∗
    rw [hsame, kstar_idem, ← hrow]
    rfl
  · exact absurd h (List.append_ne_nil_of_right_ne_nil t (List.cons_ne_nil _ _))

/-- One text after another shows the words of one after those of the other. -/
theorem Shows.append (hf : Shows s K f) (hg : Shows t L g) (hfollows : Follows s t) :
    Shows (s ++ t) (K * L) (g ∘ f) := by
  intro l hclosed
  have hfront : s.head? = some '*' → l.Closed := by
    intro hs
    apply hclosed
    rw [List.head?_append, hs, Option.some_or]
  rcases hf l hfront with ⟨hended, hrow, hstar, hunseen⟩
  -- A star at the start of the second text finds nothing before it, or another star.
  have hback : t.head? = some '*' → (f l).Closed := by
    intro ht
    by_cases hs : s = []
    · rw [hunseen hs]
      apply hclosed
      rw [hs, List.nil_append]
      exact ht
    · have hlast := List.getLast?_eq_some_getLast hs
      apply hstar
      rw [hlast, hfollows ht _ hlast]
  rcases hg (f l) hback with ⟨hended', hrow', hstar', hunseen'⟩
  refine ⟨hended'.trans hended, ?_, fun hlast => ?_, fun hnil => ?_⟩
  · rw [Function.comp_apply, hrow', hrow, mul_assoc]
  · by_cases ht : t = []
    · rw [Function.comp_apply, hunseen' ht]
      apply hstar
      rw [ht, List.append_nil] at hlast
      exact hlast
    · rw [List.getLast?_append_of_ne_nil _ ht] at hlast
      exact hstar' hlast
  · rcases List.append_eq_nil_iff.1 hnil with ⟨hs, ht⟩
    rw [Function.comp_apply, hunseen' ht, hunseen hs]

/-- A row is a choice, the only one. -/
theorem Shows.showsChoice (hf : Shows t L f) : ShowsChoice L f := by
  intro l hfront hlast
  rcases hf l fun _ => Shown.closed_of_one hlast with ⟨hended, hrow, _, _⟩
  rw [Shown.words, hended, hrow, Shown.row, hfront, hlast, one_mul, one_mul]

/-- A bar makes choices of both sides. -/
theorem ShowsChoice.bar (hf : ShowsChoice K f) (hg : ShowsChoice L g) :
    ShowsChoice (K + L) (g ∘ Shown.bar ∘ f) := by
  intro l hfront hlast
  have hright := hg (f l).bar rfl rfl
  rw [Function.comp_apply, Function.comp_apply, hright, Shown.bar, hf l hfront hlast, add_assoc]

theorem ShowsChoice.words_blank (hf : ShowsChoice L f) : (f .blank).words = L := by
  rw [hf .blank rfl rfl, Shown.blank, zero_add]

end Shows

/-- Between parentheses a pattern stands for its words. -/
theorem shows_parentheses {p : Pattern} (hchoice : ShowsChoice p.language p.shown) :
    Shows ('(' :: p.text ++ [')']) p.language (fun l => l.add (p.shown .blank).words) := by
  rw [hchoice.words_blank]
  have hlast : ('(' :: p.text ++ [')']).getLast? = some ')' := List.getLast?_concat
  apply shows_add (List.append_ne_nil_of_right_ne_nil _ (List.cons_ne_nil ')' []))
  rw [hlast]
  simp only [ne_eq, Option.some.injEq, Char.reduceEq, not_false_eq_true]

theorem shows_star_parentheses {p : Pattern} (hchoice : ShowsChoice p.language p.shown) :
    Shows ('(' :: p.text ++ [')'] ++ ['*']) p.language∗
      (fun l => (l.add (p.shown .blank).words).star) := by
  rw [hchoice.words_blank]
  exact shows_star_add p.language

/-- As an operand in a row every pattern shows its words, since a choice gets
    parentheses. -/
theorem shows_within {p : Pattern} (hrow : 0 < p.precedence → Shows p.text p.language p.shown)
    (hchoice : ShowsChoice p.language p.shown) :
    Shows (bracketed 1 p p.text) p.language (within 1 p p.shown) := by
  by_cases h : p.precedence < 1
  · have hwithin : within 1 p p.shown = fun l => l.add (p.shown .blank).words :=
      funext fun _ => if_pos h
    rw [bracketed, if_pos h, hwithin]
    exact shows_parentheses hchoice
  · have hwithin : within 1 p p.shown = p.shown := funext fun _ => if_neg h
    rw [bracketed, if_neg h, hwithin]
    exact hrow (Nat.le_of_not_lt h)

/-- Under a star a pattern shows the repetitions of its words. The empty pattern shows
    nothing that could be repeated, and its only word is the repetition of itself. -/
theorem shows_repeated {p : Pattern} (hrow : 0 < p.precedence → Shows p.text p.language p.shown)
    (hchoice : ShowsChoice p.language p.shown) :
    Shows (repeated p).text (repeated p).language (repeated p).shown := by
  cases p with
  | empty => exact shows_star
  | literal c => exact shows_star_add (t := [c]) {[c]}
  | concatenate p q => exact shows_star_parentheses hchoice
  | choose p q => exact shows_star_parentheses hchoice
  | repeated p =>
      refine (hrow Nat.two_pos).star ?_
      exact List.getLast?_concat

/-- A legible pattern shows its words. -/
theorem shows_shown {p : Pattern} (hmarks : p.Unmarked) (h : p.Legible) :
    (0 < p.precedence → Shows p.text p.language p.shown) ∧ ShowsChoice p.language p.shown := by
  -- Rows are for operands in a row, choices for those of a choice and for what stands
  -- between parentheses. So the induction needs both.
  induction p with
  | empty => exact ⟨fun _ => shows_id, shows_id.showsChoice⟩
  | literal c =>
      have hne : c ≠ '*' := by
        rintro rfl
        exact hmarks '*' (List.mem_singleton_self '*') (by decide)
      have hrow : Shows [c] {[c]} (·.add {[c]}) := by
        apply shows_add (List.cons_ne_nil c [])
        simp only [List.getLast?_singleton, ne_eq, Option.some.injEq]
        exact hne
      exact ⟨fun _ => hrow, hrow.showsChoice⟩
  | concatenate p q ihp ihq =>
      rcases h with ⟨hp, hq, hfollows⟩
      have ihp := ihp (fun c hc => hmarks c (List.mem_append_left _ hc)) hp
      have ihq := ihq (fun c hc => hmarks c (List.mem_append_right _ hc)) hq
      have hrow := (shows_within ihp.1 ihp.2).append (shows_within ihq.1 ihq.2) hfollows
      exact ⟨fun _ => hrow, hrow.showsChoice⟩
  | choose p q ihp ihq =>
      have ihp := ihp (fun c hc => hmarks c (List.mem_append_left _ hc)) h.1
      have ihq := ihq (fun c hc => hmarks c (List.mem_append_right _ hc)) h.2
      exact ⟨fun h => absurd h (Nat.lt_irrefl 0), ihp.2.bar ihq.2⟩
  | repeated p ih =>
      have hrow := shows_repeated (ih hmarks h).1 (ih hmarks h).2
      exact ⟨fun _ => hrow, hrow.showsChoice⟩

/-- The words that a text shows do not depend on the pattern that was printed. -/
theorem shown_eq_of_text_eq {p q : Pattern} (hp : p.Unmarked) (hq : q.Unmarked)
    (h : p.text = q.text) : p.shown .blank = q.shown .blank := by
  have hleft := foldl_read_text hp .blank []
  rw [h, foldl_read_text hq .blank []] at hleft
  exact (congrArg Prod.fst hleft).symm

/-- Patterns with one text match the same words, if none of them has a star that follows
    on what it does not repeat. This is for patterns without marks as literals. The empty
    pattern may stand in them wherever it is not repeated behind something that is seen. -/
theorem accepts_eq_of_text_eq (p q : Pattern) (hp : p.Unmarked) (hq : q.Unmarked)
    (hpl : p.Legible) (hql : q.Legible) (h : p.text = q.text) (w : List Char) :
    p.accepts w = q.accepts w := by
  apply accepts_eq_of_language_eq
  rw [← (shows_shown hp hpl).2.words_blank, ← (shows_shown hq hql).2.words_blank,
    shown_eq_of_text_eq hp hq h]

/-- The text `(a|)b**|*`, with the empty pattern as a choice and repeated, once behind
    another star and once at the start of a row. -/
def withEmpty : Pattern :=
  choose (concatenate (choose (literal 'a') empty)
    (concatenate (repeated (literal 'b')) (repeated empty))) (repeated empty)

/-- The same text, with a letter repeated twice and the empty pattern in two rows. -/
def moreEmpty : Pattern :=
  choose (concatenate (concatenate empty (choose (literal 'a') empty))
    (repeated (repeated (literal 'b')))) (concatenate (repeated empty) empty)

theorem accepts_eq_of_text_eq_withEmpty :
    withEmpty.Unmarked ∧ moreEmpty.Unmarked ∧ withEmpty.Legible ∧ moreEmpty.Legible ∧
    withEmpty.text = moreEmpty.text ∧
    withEmpty.accepts ['a', 'b', 'b'] = moreEmpty.accepts ['a', 'b', 'b'] := by
  have hp : withEmpty.Unmarked := by decide
  have hq : moreEmpty.Unmarked := by decide
  have hpl : withEmpty.Legible := by decide
  have hql : moreEmpty.Legible := by decide
  have htext : withEmpty.text = moreEmpty.text := rfl
  exact ⟨hp, hq, hpl, hql, htext,
    accepts_eq_of_text_eq withEmpty moreEmpty hp hq hpl hql htext ['a', 'b', 'b']⟩

/-- A letter and the empty pattern repeated. -/
def starBehind : Pattern := concatenate (literal 'a') (repeated empty)

/-- A letter repeated. -/
def starred : Pattern := repeated (literal 'a')

/-- The star of the empty pattern follows on the letter, and nothing tells it from a star
    of the letter. -/
theorem text_starBehind : starBehind.Unmarked ∧ starred.Unmarked ∧
    starBehind.text = starred.text ∧ starBehind.accepts ['a', 'a'] = false ∧
    starred.accepts ['a', 'a'] = true := by
  refine ⟨by decide, by decide, rfl, ?_, ?_⟩
  · cbv
  · cbv

end Pattern

end WordAutomata
