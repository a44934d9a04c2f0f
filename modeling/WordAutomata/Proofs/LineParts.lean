import WordAutomata.Aldebaran.Transition
import WordAutomata.Proofs.Decimals
import Mathlib.Data.List.Basic
import Mathlib.Data.List.TakeDrop

/-!
# The Parts of a Line

A transition is taken apart from the outside in, by first and last places of
commas and parentheses. So all that matters is which of these characters stand in
the parts outside. The label, which lies between the first comma and the last one,
may hold any of them. A header is matched from left to right.

White space around the parts is cut off. For what follows it is enough to know
that of parts that begin and end with something else.

## Main definitions

* `Text.Trim`: A text that neither begins nor ends with white space.
* `Text.Padded`: A text with white space on its sides.
* `Aldebaran.Laid`: A line with three parts between parentheses.

## Theorems

* `Text.trim_surrounded`: White space around a text is cut off.
* `Aldebaran.fields?_line`, `fields?_laid`: The three fields of a line.
* `Aldebaran.unquote_quoted`: A label between quotes, whatever it is.
* `Aldebaran.findHeader?_laid`: The digits of a header.
-/

namespace WordAutomata

namespace Text

/-! ## White space -/

/-- A text neither begins nor ends with white space. -/
def Trim (s : List Char) : Prop :=
  (∀ c ∈ s.head?, isBlank c = false) ∧ ∀ c ∈ s.getLast?, isBlank c = false

theorem trimLeft_append {left s : List Char} (hleft : ∀ c ∈ left, isBlank c = true) :
    trimLeft (left ++ s) = trimLeft s :=
  List.dropWhile_append_of_pos hleft

/-- White space in front is cut off, up to something else. -/
theorem trimLeft_of_head {left s : List Char} (hleft : ∀ c ∈ left, isBlank c = true)
    (hs : ∀ c ∈ s.head?, isBlank c = false) : trimLeft (left ++ s) = s := by
  rw [trimLeft_append hleft]
  cases s with
  | nil => rfl
  | cons c s =>
      have hc : isBlank c = false := hs c rfl
      rw [trimLeft, List.dropWhile_cons, hc, if_neg Bool.false_ne_true]

theorem isBlank_of_mem_nil : ∀ c ∈ ([] : List Char), isBlank c = true :=
  fun _ hc => absurd hc List.not_mem_nil

theorem isBlank_of_mem_space : ∀ c ∈ [' '], isBlank c = true := by
  intro c hc
  rw [List.mem_singleton] at hc
  subst hc
  rfl

/-- White space around a text is cut off. -/
theorem trim_surrounded {left s right : List Char} (hleft : ∀ c ∈ left, isBlank c = true)
    (hs : Trim s) (hright : ∀ c ∈ right, isBlank c = true) :
    trim (left ++ (s ++ right)) = s := by
  cases s with
  | nil =>
      -- There is nothing but white space, and all of it is in front.
      have hblank : ∀ c ∈ left ++ right, isBlank c = true := fun c hc =>
        (List.mem_append.1 hc).elim (hleft c) (hright c)
      have hall := trimLeft_of_head (s := []) hblank fun c hc => nomatch hc
      rw [List.append_nil] at hall
      rw [List.nil_append, trim, hall]
      rfl
  | cons d s =>
      have hfront : trimLeft (left ++ (d :: s ++ right)) = d :: s ++ right :=
        trimLeft_of_head hleft hs.1
      have hback : trimLeft (right.reverse ++ (d :: s).reverse) = (d :: s).reverse := by
        apply trimLeft_of_head fun c hc => hright c (List.mem_reverse.1 hc)
        rw [List.head?_reverse]
        exact hs.2
      rw [trim, hfront, trimRight, List.reverse_append]
      exact (congrArg List.reverse hback).trans (List.reverse_reverse _)

/-- Digits are no white space. -/
theorem trim_of_digits {digits : List Char} (hdigits : ∀ c ∈ digits, isDigit c = true) :
    Trim digits :=
  ⟨fun c hc => isBlank_of_isDigit (hdigits c (List.mem_of_head? hc)),
    fun c hc => isBlank_of_isDigit (hdigits c (List.mem_of_getLast? hc))⟩

/-- It is enough to look at the first character and at the last one. -/
theorem trim_of_ends {s : List Char} {c d : Char} (hfirst : s.head? = some c)
    (hlast : s.getLast? = some d) (hc : isBlank c = false) (hd : isBlank d = false) : Trim s := by
  refine ⟨fun c' hc' => ?_, fun d' hd' => ?_⟩
  · rw [hfirst] at hc'
    cases hc'
    exact hc
  · rw [hlast] at hd'
    cases hd'
    exact hd

/-- Quotes are no white space. -/
theorem trim_of_quotes (label : List Char) : Trim ('"' :: (label ++ ['"'])) :=
  trim_of_ends rfl (List.getLast?_concat (l := '"' :: _)) rfl rfl

/-- A text is a part with white space on its sides, which may be none. -/
def Padded (part s : List Char) : Prop :=
  ∃ left right, (∀ c ∈ left, isBlank c = true) ∧ (∀ c ∈ right, isBlank c = true) ∧
    s = left ++ (part ++ right)

theorem padded_of_all {part : List Char} (left right : List Char)
    (hleft : left.all isBlank = true) (hright : right.all isBlank = true) :
    Padded part (left ++ (part ++ right)) :=
  ⟨left, right, List.all_eq_true.1 hleft, List.all_eq_true.1 hright, rfl⟩

theorem padded_self (part : List Char) : Padded part part :=
  ⟨[], [], isBlank_of_mem_nil, isBlank_of_mem_nil, (List.append_nil part).symm⟩

theorem padded_space (part : List Char) : Padded part (' ' :: part) := by
  refine ⟨[' '], [], isBlank_of_mem_space, isBlank_of_mem_nil, ?_⟩
  rw [List.append_nil]
  rfl

theorem Padded.trim_eq {part s : List Char} (h : Padded part s) (hpart : Trim part) :
    trim s = part := by
  rcases h with ⟨left, right, hleft, hright, rfl⟩
  exact trim_surrounded hleft hpart hright

theorem Padded.not_mem {part s : List Char} {c : Char} (h : Padded part s) (hpart : c ∉ part)
    (hc : isBlank c = false) : c ∉ s := by
  rcases h with ⟨left, right, hleft, hright, rfl⟩
  have hnot : ∀ blank : List Char, (∀ d ∈ blank, isBlank d = true) → c ∉ blank := by
    intro blank hblank hmem
    rw [hblank c hmem] at hc
    cases hc
  simp only [List.mem_append, not_or]
  exact ⟨hnot left hleft, hpart, hnot right hright⟩

end Text

namespace Aldebaran

open Text

/-! ## Places -/

section Places

variable {c : Char} {line front part back : List Char}

theorem firstPlace?_of_eq (h : c ∉ front) (hline : line = front ++ c :: back) :
    firstPlace? c line = some front.length := by
  subst hline
  unfold firstPlace?
  induction front with
  | nil => simp only [List.nil_append, List.idxOf?_cons, beq_self_eq_true, if_true, List.length_nil]
  | cons d front ih =>
      rw [List.mem_cons, not_or] at h
      have hne : (d == c) = false := beq_false_of_ne (Ne.symm h.1)
      rw [List.cons_append, List.idxOf?_cons, hne, if_neg Bool.false_ne_true, ih h.2]
      rfl

theorem lastPlace?_of_eq (h : c ∉ back) (hline : line = front ++ c :: back) :
    lastPlace? c line = some front.length := by
  -- The last place is the first one from behind.
  have hreverse : line.reverse = back.reverse ++ c :: front.reverse := by
    rw [hline, List.reverse_append, List.reverse_cons, List.append_assoc, List.singleton_append]
  have hplace := firstPlace?_of_eq (fun hmem => h (List.mem_reverse.1 hmem)) hreverse
  rw [firstPlace?] at hplace
  rw [lastPlace?, hplace, Option.map_some, hline, List.length_append, List.length_cons,
    List.length_reverse]
  congr 1
  omega

theorem firstPlace?_of_not_mem (h : c ∉ line) : firstPlace? c line = none :=
  List.idxOf?_eq_none_iff.2 h

theorem lastPlace?_of_not_mem (h : c ∉ line) : lastPlace? c line = none := by
  have hreverse : line.reverse.idxOf? c = none :=
    List.idxOf?_eq_none_iff.2 fun hmem => h (List.mem_reverse.1 hmem)
  rw [lastPlace?, hreverse, Option.map_none]

/-- What lies behind a mark, up to some length. -/
theorem between?_of_eq (hline : line = front ++ c :: (part ++ back)) :
    between? line (front.length + 1) (front ++ c :: part).length = some part := by
  have hlength : (front ++ c :: part).length = front.length + 1 + part.length := by
    rw [List.length_append, List.length_cons]
    omega
  have hsplit : line = (front ++ [c]) ++ (part ++ back) := by
    rw [hline, List.append_assoc, List.singleton_append]
  have hmark : front.length + 1 = (front ++ [c]).length := by
    rw [List.length_append, List.length_singleton]
  rw [between?, hlength, if_pos (Nat.le_add_right _ _), hsplit, hmark, ← List.append_assoc,
    ← List.length_append, List.take_left, List.drop_left]

end Places

/-- The three fields of a line. The source has no comma and neither does what
    stands in front, the target has none and neither does what comes after. The
    label may hold anything. -/
theorem fields?_line {front source label target back : List Char} (hopening : '(' ∉ front)
    (hcomma : ',' ∉ front ++ '(' :: source) (hlast : ',' ∉ target ++ ')' :: back)
    (hclosing : ')' ∉ back) :
    fields? (front ++ '(' :: (source ++ ',' :: (label ++ ',' :: (target ++ ')' :: back)))) =
      some (trim source, unquote (trim label), trim target) := by
  generalize hline : front ++ '(' :: (source ++ ',' :: (label ++ ',' :: (target ++ ')' :: back))) =
    line
  -- The line as it looks from each of the commas, and from the end.
  have hfirst : line = (front ++ '(' :: source) ++
      ',' :: (label ++ ',' :: (target ++ ')' :: back)) := by
    rw [← hline, List.append_assoc, List.cons_append]
  have hsecond : line = (front ++ '(' :: source ++ ',' :: label) ++
      ',' :: (target ++ ')' :: back) := by
    rw [hfirst, List.append_assoc _ (',' :: label), List.cons_append]
  have hthird : line = (front ++ '(' :: source ++ ',' :: label ++ ',' :: target) ++
      ')' :: back := by
    rw [hsecond, List.append_assoc _ (',' :: target), List.cons_append]
  rw [fields?, firstPlace?_of_eq hopening hline.symm, firstPlace?_of_eq hcomma hfirst,
    lastPlace?_of_eq hlast hsecond, lastPlace?_of_eq hclosing hthird]
  simp only [Option.bind_eq_bind, Option.bind_some, between?_of_eq hline.symm,
    between?_of_eq hfirst, between?_of_eq hsecond]
  rfl

/-- Without a closing parenthesis there are no fields. -/
theorem fields?_of_not_mem {line : List Char} (h : ')' ∉ line) : fields? line = none := by
  rw [Option.eq_none_iff_forall_ne_some]
  intro parts hparts
  simp only [fields?, Option.bind_eq_bind, Option.bind_eq_some_iff] at hparts
  rcases hparts with ⟨_, _, _, _, _, _, closing, hsome, _⟩
  rw [lastPlace?_of_not_mem h] at hsome
  cases hsome

/-- Quotes around a label are taken off, whatever the label is. -/
theorem unquote_quoted (label : List Char) : unquote ('"' :: (label ++ ['"'])) = label := by
  have hlength : 2 ≤ ('"' :: (label ++ ['"'])).length := by
    simp only [List.length_cons, List.length_append]
    omega
  have hlast : ('"' :: (label ++ ['"'])).getLast? = some '"' := by
    rw [← List.cons_append, List.getLast?_concat]
  rw [unquote, if_pos (by simp only [hlength, hlast, List.head?_cons, decide_true, Bool.and_true])]
  rw [List.tail_cons, List.dropLast_concat]

/-- A text that begins and ends with a quote has something between two of them, or it is
    a lone quote. -/
theorem lone_or_quoted {label : List Char} (hhead : label.head? = some '"')
    (hlast : label.getLast? = some '"') :
    label = ['"'] ∨ ∃ inner, label = '"' :: (inner ++ ['"']) := by
  cases label with
  | nil => cases hhead
  | cons c label =>
      cases hhead
      rcases List.eq_nil_or_concat label with rfl | ⟨inner, d, rfl⟩
      · exact .inl rfl
      · rw [List.concat_eq_append, ← List.cons_append, List.getLast?_concat] at hlast
        cases hlast
        exact .inr ⟨inner, by rw [List.concat_eq_append]⟩

/-- Without quotes on both ends a label is left as it is. -/
theorem unquote_of_ne {label : List Char} (h : ∀ inner, label ≠ '"' :: (inner ++ ['"'])) :
    unquote label = label := by
  apply if_neg
  intro hquotes
  simp only [Bool.and_eq_true, decide_eq_true_eq] at hquotes
  rcases hquotes with ⟨⟨hlength, hhead⟩, hlast⟩
  rcases lone_or_quoted hhead hlast with rfl | ⟨inner, hinner⟩
  · rw [List.length_singleton] at hlength
    omega
  · exact h inner hinner

/-! ## Headers -/

theorem after?_append (mark s : List Char) : after? mark (mark ++ s) = some s := by
  induction mark with
  | nil => rfl
  | cons c mark ih => rw [List.cons_append, after?, if_pos rfl, ih]

/-- A mark is found behind white space, and white space behind it is cut off. -/
theorem afterMark?_append {left s : List Char} {mark : Char} (hleft : ∀ c ∈ left, isBlank c = true)
    (hmark : isBlank mark = false) : afterMark? [mark] (left ++ mark :: s) = some (trimLeft s) := by
  have hhead : trimLeft (mark :: s) = [mark] ++ s := by
    rw [trimLeft, List.dropWhile_cons, hmark, if_neg Bool.false_ne_true, List.singleton_append]
  rw [afterMark?, trimLeft_append hleft, hhead, after?_append, Option.map_some]

/-- Digits end where white space or a mark follows. -/
theorem spanDigits_append {digits right s : List Char} {mark : Char}
    (hdigits : ∀ c ∈ digits, isDigit c = true) (hright : ∀ c ∈ right, isBlank c = true)
    (hmark : isDigit mark = false) :
    spanDigits (digits ++ (right ++ mark :: s)) = (digits, right ++ mark :: s) := by
  have hend : ∀ rest, (∀ c ∈ rest.head?, isDigit c = false) →
      spanDigits (digits ++ rest) = (digits, rest) := by
    intro rest hrest
    rw [spanDigits, List.span_eq_takeWhile_dropWhile, List.takeWhile_append_of_pos hdigits,
      List.dropWhile_append_of_pos hdigits]
    cases rest with
    | nil => rw [List.takeWhile_nil, List.append_nil, List.dropWhile_nil]
    | cons c rest =>
        have hc : isDigit c = false := hrest c rfl
        rw [List.takeWhile_cons, List.dropWhile_cons, hc, if_neg Bool.false_ne_true,
          if_neg Bool.false_ne_true, List.append_nil]
  apply hend
  intro c hc
  cases right with
  | nil =>
      cases hc
      exact hmark
  | cons d right =>
      cases hc
      rw [Bool.eq_false_iff]
      intro hdigit
      have hblank := hright c List.mem_cons_self
      rw [isBlank_of_isDigit hdigit] at hblank
      cases hblank

/-- Digits behind a mark, with white space on both of its sides. -/
theorem afterMark?_digits {left right digits s : List Char} {mark : Char}
    (hleft : ∀ c ∈ left, isBlank c = true) (hmark : isBlank mark = false)
    (hright : ∀ c ∈ right, isBlank c = true) (hdigits : ∀ c ∈ digits, isDigit c = true)
    (hne : digits ≠ []) :
    afterMark? [mark] (left ++ mark :: (right ++ (digits ++ s))) = some (digits ++ s) := by
  have hhead : ∀ c ∈ (digits ++ s).head?, isBlank c = false := by
    rw [List.head?_append_of_ne_nil _ hne]
    exact (trim_of_digits hdigits).1
  rw [afterMark?_append hleft hmark, trimLeft_of_head hright hhead]

/-- White space in front of a header is passed over. -/
theorem findHeader?_append {left s : List Char} (hleft : ∀ c ∈ left, isBlank c = true) :
    findHeader? (left ++ s) = findHeader? s := by
  induction left with
  | nil => rfl
  | cons c left ih =>
      rw [List.forall_mem_cons] at hleft
      have hne : 'd' ≠ c := by
        rintro rfl
        exact absurd hleft.1 (by decide)
      have hmatch : matchHeader? (c :: (left ++ s)) = none := by
        rw [matchHeader?, after?, if_neg hne]
        rfl
      rw [List.cons_append, findHeader?, hmatch]
      exact ih hleft.2

/-! ## Lines with three parts -/

/-- Three parts between parentheses behind a keyword, with commas in between, and with
    white space on the sides of everything. -/
def Laid (keyword first second third line : List Char) : Prop :=
  ∃ front a b c back, Padded keyword front ∧ Padded first a ∧ Padded second b ∧
    Padded third c ∧ (∀ d ∈ back, isBlank d = true) ∧
    line = front ++ '(' :: (a ++ ',' :: (b ++ ',' :: (c ++ ')' :: back)))

/-- The three parts of a line without a keyword. The label may hold anything. -/
theorem fields?_laid {source label target line : List Char} (h : Laid [] source label target line)
    (hsource : ∀ c ∈ source, isDigit c = true) (hlabel : Trim label)
    (htarget : ∀ c ∈ target, isDigit c = true) :
    fields? line = some (source, unquote label, target) := by
  rcases h with ⟨front, a, b, c, back, hfront, ha, hb, hc, hback, rfl⟩
  have hdigits : ∀ digits : List Char, (∀ c ∈ digits, isDigit c = true) → ',' ∉ digits :=
    fun digits h hmem => ne_of_isDigit (h _ hmem) rfl rfl
  have hblank : ∀ mark, isBlank mark = false → mark ∉ back := by
    intro mark hmark hmem
    rw [hback mark hmem] at hmark
    cases hmark
  have hfront_not : ∀ mark, isBlank mark = false → mark ∉ front := fun mark =>
    hfront.not_mem List.not_mem_nil
  rw [fields?_line, ha.trim_eq (trim_of_digits hsource), hb.trim_eq hlabel,
    hc.trim_eq (trim_of_digits htarget)]
  · exact hfront_not '(' rfl
  · simp [hfront_not ',' rfl, ha.not_mem (hdigits _ hsource) rfl]
  · simp [hc.not_mem (hdigits _ htarget) rfl, hblank ',' rfl]
  · exact hblank ')' rfl

/-- The digits of a header are found where they are. -/
theorem findHeader?_laid {initial transitions states line : List Char}
    (h : Laid ['d', 'e', 's'] initial transitions states line)
    (hinitial : ∀ c ∈ initial, isDigit c = true) (hinitial_ne : initial ≠ [])
    (htransitions : ∀ c ∈ transitions, isDigit c = true) (htransitions_ne : transitions ≠ [])
    (hstates : ∀ c ∈ states, isDigit c = true) (hstates_ne : states ≠ []) :
    findHeader? line = some (initial, transitions, states) := by
  rcases h with ⟨_, _, _, _, back, ⟨left, gap, hleft, hgap, rfl⟩,
    ⟨left₁, right₁, hleft₁, hright₁, rfl⟩, ⟨left₂, right₂, hleft₂, hright₂, rfl⟩,
    ⟨left₃, right₃, hleft₃, hright₃, rfl⟩, _, rfl⟩
  -- What is left of the line when each of the numbers is reached.
  let atStates := states ++ (right₃ ++ ')' :: back)
  let atTransitions := transitions ++ (right₂ ++ ',' :: (left₃ ++ atStates))
  let atInitial := initial ++ (right₁ ++ ',' :: (left₂ ++ atTransitions))
  have hline : left ++ (['d', 'e', 's'] ++ gap) ++ '(' :: (left₁ ++ (initial ++ right₁) ++
      ',' :: (left₂ ++ (transitions ++ right₂) ++ ',' :: (left₃ ++ (states ++ right₃) ++
        ')' :: back))) = left ++ (['d', 'e', 's'] ++ (gap ++ '(' :: (left₁ ++ atInitial))) := by
    simp only [atInitial, atTransitions, atStates, List.append_assoc]
  have hopening : afterMark? ['('] (gap ++ '(' :: (left₁ ++ atInitial)) = some atInitial :=
    afterMark?_digits hgap rfl hleft₁ hinitial hinitial_ne
  have hfirst : spanDigits atInitial = (initial, right₁ ++ ',' :: (left₂ ++ atTransitions)) :=
    spanDigits_append hinitial hright₁ rfl
  have hcomma : afterMark? [','] (right₁ ++ ',' :: (left₂ ++ atTransitions)) =
      some atTransitions :=
    afterMark?_digits hright₁ rfl hleft₂ htransitions htransitions_ne
  have hsecond : spanDigits atTransitions = (transitions, right₂ ++ ',' :: (left₃ ++ atStates)) :=
    spanDigits_append htransitions hright₂ rfl
  have hcomma' : afterMark? [','] (right₂ ++ ',' :: (left₃ ++ atStates)) = some atStates :=
    afterMark?_digits hright₂ rfl hleft₃ hstates hstates_ne
  have hthird : spanDigits atStates = (states, right₃ ++ ')' :: back) :=
    spanDigits_append hstates hright₃ rfl
  have hclosing : afterMark? [')'] (right₃ ++ ')' :: back) = some (trimLeft back) :=
    afterMark?_append hright₃ rfl
  have hmatch : matchHeader? (['d', 'e', 's'] ++ (gap ++ '(' :: (left₁ ++ atInitial))) =
      some (initial, transitions, states) := by
    rw [matchHeader?, after?_append]
    simp only [Option.bind_eq_bind, Option.bind_some, hopening, hfirst, hcomma, hsecond, hcomma',
      hthird, hclosing]
    rfl
  -- The pattern is tried at each place, and fits where the white space ends.
  rw [hline, findHeader?_append hleft, findHeader?.eq_def, hmatch]

end Aldebaran

end WordAutomata
