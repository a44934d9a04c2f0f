import WordAutomata.Proofs.Regrouping

/-!
# Reading Printed Patterns

The text of a pattern leaves open how it was grouped, and nothing else. To show this,
the text is read back here, one character at a time. The reader keeps what stands in a
row since the last bar, and the choices before it. An opening parenthesis sets both
aside, and the closing one adds what is between them to the row.

Where the printer leaves parentheses out, the parts of an operand end up in the row or
among the choices around it, and not as one pattern. So an operand without parentheses
has to be one that may be regrouped there. A choice in a row is not, nor is a row under
a star, and these are the operands that bind weaker than what is around them.

The empty pattern leaves no trace in a text, and a literal that is a parenthesis, a bar
or a star would be taken for one. Both have to be left out.

## Main definitions

* `Pattern.Printable`: The patterns whose text can be told.
* `Pattern.Reader`: A text read in part.
* `Pattern.read`: The pattern of a text.
* `Pattern.extend`: What reading the text of a pattern adds to a row and choices.
* `Pattern.AddsRow`, `Pattern.AddsChoices`: What is added is the pattern, regrouped.

## Theorems

* `Pattern.foldlM_read_text`: What reading a printed text does.
* `Pattern.read_text`: The pattern of a printed text.
* `Pattern.extend_adds`: Every pattern adds its choices, and a row if it is no choice.
* `Pattern.text_eq_iff_regrouped`: Patterns of one text differ in grouping only.
-/

namespace WordAutomata

namespace Pattern

/-- The characters with a meaning in the text of a pattern. -/
def marks : List Char := ['(', ')', '|', '*']

/-- A pattern without the empty one and without marks as literals. -/
def Printable : Pattern → Prop
  | empty => False
  | literal c => c ∉ marks
  | concatenate p q => p.Printable ∧ q.Printable
  | choose p q => p.Printable ∧ q.Printable
  | repeated p => p.Printable

instance decidablePrintable : (p : Pattern) → Decidable p.Printable
  | empty => inferInstanceAs (Decidable False)
  | literal c => inferInstanceAs (Decidable (c ∉ marks))
  | concatenate p q => @instDecidableAnd _ _ (decidablePrintable p) (decidablePrintable q)
  | choose p q => @instDecidableAnd _ _ (decidablePrintable p) (decidablePrintable q)
  | repeated p => decidablePrintable p

/-! ## The reader -/

/-- What is read between two parentheses. -/
structure Level where
  /-- The choices before the last bar, the last one first. -/
  ended : List Pattern
  /-- The patterns in a row since then, the last one first. -/
  row : List Pattern

namespace Level

/-- Nothing is read yet. -/
def blank : Level := ⟨[], []⟩

/-- The pattern that was read. -/
def pattern (l : Level) : Pattern := chain choose (chain concatenate l.row :: l.ended)

/-- Adds a pattern to the row. -/
def add (l : Level) (p : Pattern) : Level := ⟨l.ended, p :: l.row⟩

/-- Ends a choice. -/
def bar (l : Level) : Level := ⟨chain concatenate l.row :: l.ended, []⟩

/-- Repeats the last pattern of the row, if there is one. -/
def star : Level → Option Level
  | ⟨_, []⟩ => none
  | ⟨ended, p :: row⟩ => some ⟨ended, repeated p :: row⟩

end Level

/-- A text that was read in part. -/
structure Reader where
  /-- What stands there since the last parenthesis that is still open. -/
  level : Level
  /-- What stands before the open parentheses, the last one first. -/
  outer : List Level

namespace Reader

/-- Reads a character. A star needs a pattern before it, and a closing parenthesis an
    open one. -/
def read (r : Reader) (c : Char) : Option Reader :=
  if c = '(' then some ⟨.blank, r.level :: r.outer⟩
  else if c = ')' then
    match r.outer with
    | [] => none
    | l :: outer => some ⟨l.add r.level.pattern, outer⟩
  else if c = '|' then some ⟨r.level.bar, r.outer⟩
  else if c = '*' then r.level.star.map (⟨·, r.outer⟩)
  else some ⟨r.level.add (literal c), r.outer⟩

variable {r : Reader} {l m : Level} {outer : List Level}

theorem read_open : r.read '(' = some ⟨.blank, r.level :: r.outer⟩ := rfl

theorem read_close : read ⟨m, l :: outer⟩ ')' = some ⟨l.add m.pattern, outer⟩ := rfl

theorem read_bar : r.read '|' = some ⟨r.level.bar, r.outer⟩ := rfl

theorem read_star {p : Pattern} :
    read ⟨l.add p, outer⟩ '*' = some ⟨l.add (repeated p), outer⟩ := rfl

theorem read_literal {c : Char} (h : c ∉ marks) :
    r.read c = some ⟨r.level.add (literal c), r.outer⟩ := by
  simp only [marks, List.mem_cons, List.not_mem_nil, or_false, not_or] at h
  rw [read, if_neg h.1, if_neg h.2.1, if_neg h.2.2.1, if_neg h.2.2.2]

end Reader

/-- The pattern of a text, if every parenthesis is closed. -/
def read (text : List Char) : Option Pattern :=
  match text.foldlM Reader.read ⟨.blank, []⟩ with
  | some ⟨l, []⟩ => some l.pattern
  | _ => none

/-! ## Reading a printed text -/

/-- What an operand adds: its own parts, or itself if it stands between parentheses. -/
def grouped (outer : Nat) (operand : Pattern) (extend : Level → Level) (l : Level) : Level :=
  if operand.precedence < outer then l.add (extend .blank).pattern else extend l

/-- What the text of a pattern adds to what stands before it. -/
def extend : Pattern → Level → Level
  | empty => fun l => l.add empty
  | literal c => fun l => l.add (literal c)
  | concatenate p q => fun l => grouped 1 q q.extend (grouped 1 p p.extend l)
  | choose p q => fun l => q.extend (p.extend l).bar
  | repeated p => fun l => l.add (repeated (p.extend .blank).pattern)

/-- The pattern as it is read again, joined from the left throughout. -/
def regroup (p : Pattern) : Pattern := (p.extend .blank).pattern

/-- Under a star stands a single pattern, between parentheses or not. -/
theorem grouped_two (p : Pattern) (l : Level) : grouped 2 p p.extend l = l.add p.regroup := by
  cases p with
  -- Only these two bind weaker than the star. What the others add is a single pattern.
  | concatenate p q => exact if_pos Nat.one_lt_two
  | choose p q => exact if_pos Nat.two_pos
  | empty => rfl
  | literal c => rfl
  | repeated p => rfl

/-- The text of an operand adds what the operand does, if its own text adds its parts. -/
theorem foldlM_read_bracketed {p : Pattern} (outer : Nat)
    (htext : ∀ r : Reader, p.text.foldlM Reader.read r = some ⟨p.extend r.level, r.outer⟩)
    (r : Reader) : (bracketed outer p p.text).foldlM Reader.read r =
      some ⟨grouped outer p p.extend r.level, r.outer⟩ := by
  by_cases h : p.precedence < outer
  · rw [bracketed, grouped, if_pos h, if_pos h, List.cons_append, List.foldlM_cons,
      Reader.read_open, Option.bind_eq_bind, Option.bind_some, List.foldlM_append, htext,
      Option.bind_eq_bind, Option.bind_some, List.foldlM_cons, Reader.read_close]
    rfl
  · rw [bracketed, grouped, if_neg h, if_neg h, htext]

/-- Reading the text of a pattern adds its parts and leaves everything outside of the
    parentheses as it was. -/
theorem foldlM_read_text {p : Pattern} (h : p.Printable) (r : Reader) :
    p.text.foldlM Reader.read r = some ⟨p.extend r.level, r.outer⟩ := by
  -- The reader is any, since an operand is read after what stands before it.
  induction p generalizing r with
  | empty => exact h.elim
  | literal c =>
      rw [text, List.foldlM_cons, Reader.read_literal h]
      rfl
  | concatenate p q ihp ihq =>
      rw [text, List.foldlM_append, foldlM_read_bracketed 1 (ihp h.1), Option.bind_eq_bind,
        Option.bind_some, foldlM_read_bracketed 1 (ihq h.2)]
      rfl
  | choose p q ihp ihq =>
      rw [text, List.foldlM_append, foldlM_read_bracketed 0 (ihp h.1), Option.bind_eq_bind,
        Option.bind_some, List.foldlM_cons, Reader.read_bar, Option.bind_eq_bind,
        Option.bind_some, foldlM_read_bracketed 0 (ihq h.2)]
      rfl
  | repeated p ih =>
      rw [text, List.foldlM_append, foldlM_read_bracketed 2 (ih h), grouped_two,
        Option.bind_eq_bind, Option.bind_some, List.foldlM_cons, Reader.read_star]
      rfl

/-- A printed text is read again, up to the grouping. -/
theorem read_text {p : Pattern} (h : p.Printable) : read p.text = some p.regroup := by
  rw [read, foldlM_read_text h]
  rfl

example : read ['a', '|', '(', 'b', 'c', ')', '*'] =
    some (choose (literal 'a') (repeated (concatenate (literal 'b') (literal 'c')))) := by
  rfl

/-! ## Grouping anew -/

/-- Wherever it is read, a pattern adds a row to the row before it, and is regrouped to
    what it adds. -/
def AddsRow (p : Pattern) (extend : Level → Level) : Prop :=
  ∃ row ≠ [], (∀ l, extend l = ⟨l.ended, row ++ l.row⟩) ∧ Regrouped p (chain concatenate row)

/-- At the start of a row, a pattern adds choices and a row, and is regrouped to what it
    adds. -/
def AddsChoices (p : Pattern) (extend : Level → Level) : Prop :=
  ∃ ended row, (∀ before, extend ⟨before, []⟩ = ⟨ended ++ before, row⟩) ∧
    Regrouped p (chain choose (chain concatenate row :: ended))

variable {p q : Pattern} {f g : Level → Level}

theorem addsRow_add (h : Regrouped p q) : p.AddsRow (·.add q) :=
  ⟨[q], List.cons_ne_nil q [], fun _ => rfl, h⟩

/-- One row after another is a row of both. -/
theorem AddsRow.concatenate (hp : p.AddsRow f) (hq : q.AddsRow g) :
    (p.concatenate q).AddsRow (g ∘ f) := by
  rcases hp with ⟨left, hleft, hf, hp⟩
  rcases hq with ⟨right, hright, hg, hq⟩
  -- What is read last stands first.
  refine ⟨right ++ left, List.append_ne_nil_of_left_ne_nil hright left, fun l => ?_, ?_⟩
  · rw [Function.comp_apply, hf, hg, List.append_assoc]
  · have hjoin := regrouped_chain_append .concatenate .concatenateAssoc hright hleft
    exact (Regrouped.concatenate hp hq).trans hjoin

/-- A row is a choice, the only one. -/
theorem AddsRow.addsChoices (h : p.AddsRow f) : p.AddsChoices f := by
  rcases h with ⟨row, _, hf, hp⟩
  refine ⟨[], row, fun before => ?_, hp⟩
  rw [hf, List.append_nil, List.nil_append]

/-- Choices after others, with a bar between them, are choices among all of them. -/
theorem AddsChoices.choose (hp : p.AddsChoices f) (hq : q.AddsChoices g) :
    (p.choose q).AddsChoices (g ∘ Level.bar ∘ f) := by
  rcases hp with ⟨first, left, hf, hp⟩
  rcases hq with ⟨second, right, hg, hq⟩
  -- The bar makes a choice of the row that the first pattern left.
  refine ⟨second ++ chain concatenate left :: first, right, fun before => ?_, ?_⟩
  · rw [Function.comp_apply, Function.comp_apply, hf, Level.bar, hg, List.append_assoc,
      List.cons_append]
  · have hjoin := regrouped_chain_append .choose .chooseAssoc
      (List.cons_ne_nil (chain concatenate right) second)
      (List.cons_ne_nil (chain concatenate left) first)
    exact (Regrouped.choose hp hq).trans hjoin

/-- Read from the start, a pattern is regrouped. -/
theorem AddsChoices.regrouped (h : p.AddsChoices p.extend) : Regrouped p p.regroup := by
  rcases h with ⟨ended, row, hextend, hp⟩
  rw [regroup, Level.blank, hextend, List.append_nil]
  exact hp

/-- As an operand in a row every pattern adds a row, since a choice gets parentheses. -/
theorem addsRow_grouped (hrow : 0 < p.precedence → p.AddsRow p.extend)
    (hregroup : Regrouped p p.regroup) : p.AddsRow (grouped 1 p p.extend) := by
  by_cases h : p.precedence < 1
  · have hadd : grouped 1 p p.extend = (·.add p.regroup) := funext fun _ => if_pos h
    rw [hadd]
    exact addsRow_add hregroup
  · have hextend : grouped 1 p p.extend = p.extend := funext fun _ => if_neg h
    rw [hextend]
    exact hrow (Nat.le_of_not_lt h)

/-- A pattern adds choices where a row starts, and anywhere in a row it adds a row if it
    is no choice. -/
theorem extend_adds (p : Pattern) :
    (0 < p.precedence → p.AddsRow p.extend) ∧ p.AddsChoices p.extend := by
  -- Rows are for operands in a row, choices for those of a choice and for what stands
  -- between parentheses. So the induction needs both.
  induction p with
  | empty =>
      have hrow := addsRow_add (.refl empty)
      exact ⟨fun _ => hrow, hrow.addsChoices⟩
  | literal c =>
      have hrow := addsRow_add (.refl (literal c))
      exact ⟨fun _ => hrow, hrow.addsChoices⟩
  | concatenate p q ihp ihq =>
      have hrow := (addsRow_grouped ihp.1 ihp.2.regrouped).concatenate
        (addsRow_grouped ihq.1 ihq.2.regrouped)
      exact ⟨fun _ => hrow, hrow.addsChoices⟩
  | choose p q ihp ihq => exact ⟨fun h => absurd h (Nat.lt_irrefl 0), ihp.2.choose ihq.2⟩
  | repeated p ih =>
      have hrow := addsRow_add (.repeated ih.2.regrouped)
      exact ⟨fun _ => hrow, hrow.addsChoices⟩

theorem regrouped_regroup (p : Pattern) : Regrouped p p.regroup := (extend_adds p).2.regrouped

/-- The text of a pattern determines it up to grouping, and with it the words. This is for
    patterns without the empty one and without marks as literals. -/
theorem text_eq_iff_regrouped (p q : Pattern) (hp : p.Printable) (hq : q.Printable) :
    (p.text = q.text ↔ Regrouped p q) ∧
      (p.text = q.text → ∀ w, p.accepts w = q.accepts w) := by
  have hregrouped : p.text = q.text → Regrouped p q := by
    intro h
    -- The reader sees the text only, so it makes one pattern of both.
    have hread : p.regroup = q.regroup := by
      rw [← Option.some_inj, ← read_text hp, ← read_text hq, h]
    have hanew := regrouped_regroup p
    rw [hread] at hanew
    exact hanew.trans (regrouped_regroup q).symm
  exact ⟨⟨hregrouped, Regrouped.text_eq⟩, fun h => (hregrouped h).accepts_eq⟩

/-- The text `(a|b)(ab)*c`, joined from the left. -/
def fromLeft : Pattern :=
  concatenate (concatenate (choose (literal 'a') (literal 'b'))
    (repeated (concatenate (literal 'a') (literal 'b')))) (literal 'c')

/-- The text `(a|b)(ab)*c`, joined from the right. -/
def fromRight : Pattern :=
  concatenate (choose (literal 'a') (literal 'b'))
    (concatenate (repeated (concatenate (literal 'a') (literal 'b'))) (literal 'c'))

/-- The text `a|b(ab)*c`, where the bar reaches further. -/
def unbracketed : Pattern :=
  choose (literal 'a') (concatenate (literal 'b')
    (concatenate (repeated (concatenate (literal 'a') (literal 'b'))) (literal 'c')))

/-- Joining from the other side is a regrouping, while leaving out the parentheses is
    none. -/
theorem text_eq_iff_regrouped_unbracketed :
    fromLeft.Printable ∧ fromRight.Printable ∧ unbracketed.Printable ∧
    Regrouped fromLeft fromRight ∧ ¬ Regrouped fromRight unbracketed ∧
    fromLeft.accepts ['b', 'a', 'b', 'c'] = fromRight.accepts ['b', 'a', 'b', 'c'] := by
  have hleft : fromLeft.Printable := by decide
  have hright : fromRight.Printable := by decide
  have hunbracketed : unbracketed.Printable := by decide
  have hsame : fromLeft.text = fromRight.text := rfl
  have hdiffer : fromRight.text ≠ unbracketed.text := by decide
  rcases text_eq_iff_regrouped fromLeft fromRight hleft hright with ⟨hregrouped, haccepts⟩
  rcases text_eq_iff_regrouped fromRight unbracketed hright hunbracketed with ⟨hapart, _⟩
  refine ⟨hleft, hright, hunbracketed, hregrouped.1 hsame, fun h => hdiffer (hapart.2 h), ?_⟩
  exact haccepts hsame ['b', 'a', 'b', 'c']

end Pattern

end WordAutomata
